import Eligibility.Proofs.Evaluations
import Eligibility.Proofs.Extensions
/-!
# Inputs that are missing

**Missing.**  An evaluation notes every variable that it asks for without a value among the
inputs, whether or not the outcome turns on it.

**Waiting.**  An undetermined outcome waits for some of what is missing and for required
policies that are declared nowhere.  Operands that no longer matter drop out of what a
combination waits for, but never all of them while it is undetermined.

**Settling.**  Once everything is given that an outcome waits for, it is determined: the
operands that were determined stay so, and the others wait for nothing but what the
combination waits for.

**Results.**
* `IsDrawnFrom.accountsFor_evaluatePolicyTo`: what an evaluation notes as missing, and what it
  waits for.
* `RuleSet.settles_policyMeaning`: what a policy waits for settles it.
* `missing_of_evaluate`: the warnings and the requirements of a verdict.
-/

namespace Eligibility
open Schema

namespace Kleene

/-- A combination that leaves only undetermined operands undetermined determines lists of determined
ones. -/
theorem foldr_ne_none {f : Option Bool → Option Bool → Option Bool}
    (hf : ∀ a b, ∃ c, f (some a) (some b) = some c) (b : Bool) {vs : List (Option Bool)}
    (h : ∀ v ∈ vs, v ≠ none) : vs.foldr f (some b) ≠ none := by
  induction vs with
  | nil => simp
  | cons v vs ih =>
      obtain ⟨hv, hvs⟩ := List.forall_mem_cons.mp h
      obtain ⟨a, rfl⟩ := Option.ne_none_iff_exists'.mp hv
      obtain ⟨c, hc⟩ := Option.ne_none_iff_exists'.mp (ih hvs)
      obtain ⟨d, hd⟩ := hf a c
      rw [List.foldr_cons, hc, hd]
      simp

theorem exists_and (a b : Bool) : ∃ c, and (some a) (some b) = some c := by
  cases a <;> cases b <;> exact ⟨_, rfl⟩

theorem exists_or (a b : Bool) : ∃ c, or (some a) (some b) = some c := by
  cases a <;> cases b <;> exact ⟨_, rfl⟩

end Kleene

namespace Outcome

section Waiting

variable {os : List Outcome} {o : Outcome} {P Q : String → Prop}

theorem mem_awaited {x : String} :
    x ∈ awaited os ↔ ∃ o ∈ os, o.value = none ∧ x ∈ o.pending := by
  rw [awaited, TextSet.mem_ofList]
  simp [TextSet.mem_def, and_assoc]

theorem conjunction_ne_none (h : ∀ o ∈ os, o.value ≠ none) : (conjunction os).value ≠ none :=
  Kleene.foldr_ne_none Kleene.exists_and true (List.forall_mem_map.mpr h)

theorem disjunction_ne_none (h : ∀ o ∈ os, o.value ≠ none) : (disjunction os).value ≠ none :=
  Kleene.foldr_ne_none Kleene.exists_or false (List.forall_mem_map.mpr h)

/-- An outcome that waits only for what has a property, and for something while it is
undetermined. -/
structure Waits (P : String → Prop) (o : Outcome) : Prop where
  pending : ∀ x ∈ o.pending, P x
  exists_pending : o.value = none → ∃ x, x ∈ o.pending

theorem Waits.mono (h : o.Waits P) (hPQ : ∀ x, P x → Q x) : o.Waits Q :=
  ⟨fun x hx => hPQ x (h.pending x hx), h.exists_pending⟩

/-- A combination that waits for what its undetermined operands wait for, and that these alone leave
undetermined, waits as they do. -/
theorem waits_of_awaited {v : Option Bool} {c : Number} (h : ∀ o ∈ os, o.Waits P)
    (hv : (∀ o ∈ os, o.value ≠ none) → v ≠ none) :
    (Outcome.mk v c (if v.isNone then awaited os else .empty)).Waits P := by
  constructor
  · intro x hx
    split at hx
    · obtain ⟨o, ho, -, hxo⟩ := mem_awaited.mp hx
      exact (h o ho).pending x hxo
    · exact absurd hx (TextSet.not_mem_empty x)
  · intro hnone
    obtain rfl : v = none := hnone
    obtain ⟨o, ho, hvalue⟩ : ∃ o ∈ os, o.value = none := by
      by_contra hall
      exact hv (fun o ho hvalue => hall ⟨o, ho, hvalue⟩) rfl
    obtain ⟨x, hx⟩ := (h o ho).exists_pending hvalue
    exact ⟨x, mem_awaited.mpr ⟨o, ho, hvalue, hx⟩⟩

theorem waits_conjunction (h : ∀ o ∈ os, o.Waits P) : (conjunction os).Waits P :=
  waits_of_awaited h conjunction_ne_none

theorem waits_disjunction (h : ∀ o ∈ os, o.Waits P) : (disjunction os).Waits P :=
  waits_of_awaited h disjunction_ne_none

theorem negation_eq_none : o.negation.value = none ↔ o.value = none := by
  rw [negation]
  rcases o.value with _ | _ | _ <;> simp [Kleene.not]

theorem waits_negation (h : o.Waits P) : o.negation.Waits P :=
  ⟨h.pending, fun hnone => h.exists_pending (negation_eq_none.mp hnone)⟩

end Waiting

section Settling

variable {os os' : List Outcome} {o o' : Outcome} {given : String → Prop}

/-- An outcome that another one keeps, and that the other one determines once everything is given
that the outcome waits for. -/
structure Settles (given : String → Prop) (o o' : Outcome) : Prop where
  persists : o.Persists o'
  determined : (∀ x ∈ o.pending, given x) → o'.value ≠ none

theorem Persists.ne_none (h : o.Persists o') (hv : o.value ≠ none) : o'.value ≠ none := by
  obtain ⟨b, hb⟩ := Option.ne_none_iff_exists'.mp hv
  have hb' : o'.value = some b := Kleene.persists_some.mp (hb ▸ h.value)
  simp [hb']

/-- A combination settles where it waits for what its undetermined operands wait for and they
settle. -/
theorem settles_of_operands (h : List.Forall₂ (Settles given) os os') (hpersists : o.Persists o')
    (hpending : o.value = none → o.pending = awaited os)
    (hdetermined : (∀ x ∈ os', x.value ≠ none) → o'.value ≠ none) : o.Settles given o' := by
  refine ⟨hpersists, fun hgiven => ?_⟩
  by_cases hv : o.value = none
  · refine hdetermined fun y hy => ?_
    obtain ⟨x, hx, hxy⟩ := Attempt.exists_left h hy
    by_cases hxv : x.value = none
    · refine hxy.determined fun z hz => hgiven z ?_
      rw [hpending hv]
      exact mem_awaited.mpr ⟨x, hx, hxv, hz⟩
    · exact hxy.persists.ne_none hxv
  · exact hpersists.ne_none hv

theorem settles_conjunction (h : List.Forall₂ (Settles given) os os') :
    (conjunction os).Settles given (conjunction os') :=
  settles_of_operands h (persists_conjunction (h.imp fun _ _ hx => hx.persists))
    (fun hv => by simp only [conjunction] at hv ⊢; rw [hv]; rfl) conjunction_ne_none

theorem settles_disjunction (h : List.Forall₂ (Settles given) os os') :
    (disjunction os).Settles given (disjunction os') :=
  settles_of_operands h (persists_disjunction (h.imp fun _ _ hx => hx.persists))
    (fun hv => by simp only [disjunction] at hv ⊢; rw [hv]; rfl) disjunction_ne_none

theorem settles_negation (h : o.Settles given o') : o.negation.Settles given o'.negation :=
  ⟨persists_negation h.persists, fun hgiven hnone =>
    h.determined hgiven (negation_eq_none.mp hnone)⟩

end Settling

end Outcome

section Rules

variable {inputs more : Inputs} {o o' : Outcome} {P : String → Prop}

/-- A comparison waits for its variable, and only while that is missing. -/
theorem Head.waits_of_meaning {h : Head} (ho : h.meaning inputs = some o) :
    o.Waits fun x => h.subject = x ∧ inputs.lookup x = none := by
  cases hv : h.value with
  | none => simp [Head.meaning, hv] at ho
  | some v =>
  cases hx : h.confidence with
  | none => simp [Head.meaning, hv, hx] at ho
  | some c =>
  cases hgiven : inputs.lookup h.subject with
  | none =>
      simp only [Head.meaning, hv, hx, hgiven, Option.some.injEq] at ho
      subst ho
      refine ⟨fun x hx => ?_, fun _ => ⟨h.subject, by simp [TextSet.singleton]⟩⟩
      obtain rfl : x = h.subject := by simpa [TextSet.singleton] using hx
      exact ⟨rfl, hgiven⟩
  | some given =>
      simp only [Head.meaning, hv, hx, hgiven] at ho
      cases hcheck : (Constraint.mk h.subject h.operator v).satisfiedBy given <;>
        simp only [hcheck, Option.some.injEq, reduceCtorEq] at ho <;> subst ho <;>
        exact ⟨fun x hx => absurd hx (TextSet.not_mem_empty x), fun hnone => by cases hnone⟩

theorem Operator.waits_of_meaning {op : Operator} {os : List Outcome}
    (h : ∀ o ∈ os, o.Waits P) (ho : op.meaning os = some o) : o.Waits P := by
  unfold Operator.meaning at ho
  split at ho
  · cases ho
    exact Outcome.waits_conjunction h
  · cases ho
    exact Outcome.waits_disjunction h
  · cases ho
    exact Outcome.waits_negation (h _ (List.mem_singleton_self _))
  · cases ho

/-- Where a comparison waits for its variable, any value for it decides the comparison. -/
theorem Head.settles_meaning (hmore : more.Extend inputs) {h : Head}
    (ho : h.meaning inputs = some o) (ho' : h.meaning more = some o') :
    o.Settles (fun x => (more.lookup x).isSome = true) o' := by
  have hpersists := persists_meaning hmore ho ho'
  refine ⟨hpersists, fun hgiven hnone => ?_⟩
  have hbefore : o.value = none := by_contra fun hv => hpersists.ne_none hv hnone
  obtain ⟨x, hx⟩ := (waits_of_meaning ho).exists_pending hbefore
  obtain ⟨rfl, -⟩ := (waits_of_meaning ho).pending x hx
  obtain ⟨y, hy⟩ := (waits_of_meaning ho').exists_pending hnone
  obtain ⟨rfl, hmissing⟩ := (waits_of_meaning ho').pending y hy
  simpa [hmissing] using hgiven h.subject hx

theorem Operator.settles_meaning {op : Operator} {os os' : List Outcome} {given : String → Prop}
    (h : List.Forall₂ (Outcome.Settles given) os os') (ho : op.meaning os = some o)
    (ho' : op.meaning os' = some o') : o.Settles given o' := by
  unfold Operator.meaning at ho
  split at ho
  · cases ho
    cases ho'
    exact Outcome.settles_conjunction h
  · cases ho
    cases ho'
    exact Outcome.settles_disjunction h
  · cases ho
    cases h with
    | cons hx hnil =>
        cases hnil
        cases ho'
        exact Outcome.settles_negation hx
  · cases ho

namespace Rule

/-- Whether a comparison among some rules asks for a variable that is not among the inputs. -/
def Lack (inputs : Inputs) (ts : List Rule) (x : String) : Prop :=
  ∃ t ∈ ts, t.head.operator.isLogical = false ∧ t.head.subject = x ∧ inputs.lookup x = none

theorem Lack.mono {ts us : List Rule} {x : String} (h : Lack inputs ts x) (hsub : ts ⊆ us) :
    Lack inputs us x :=
  h.imp fun _ ht => ⟨hsub ht.1, ht.2⟩

theorem lack_walk_iff {h : Head} {cs : List Rule} {x : String} :
    Lack inputs (node h cs).walk x ↔
      h.operator.isLogical = false ∧ h.subject = x ∧ inputs.lookup x = none ∨
        ∃ c ∈ cs, Lack inputs c.walk x := by
  simp only [Lack, walk, List.exists_mem_cons_iff, head_node, mem_walkAll]
  refine or_congr_right ⟨?_, ?_⟩
  · rintro ⟨t, ⟨c, hc, ht⟩, hx⟩
    exact ⟨c, hc, t, ht, hx⟩
  · rintro ⟨c, hc, t, ht, hx⟩
    exact ⟨t, ⟨c, hc, ht⟩, hx⟩

mutual

/-- A rule waits for variables that its comparisons lack, and for one of them while it is
undetermined. -/
theorem waits_of_meaning : ∀ (r : Rule) {o : Outcome},
    r.meaning inputs = some o → o.Waits (Lack inputs r.walk)
  | node h cs, o, ho => by
      rw [meaning] at ho
      split at ho
      · obtain ⟨os, hos, ho⟩ := Option.bind_eq_some_iff.mp ho
        refine Operator.waits_of_meaning (fun o ho => ?_) ho
        exact (waits_of_meanings cs hos o ho).mono fun x hx => hx.mono (by simp [walk])
      next hl =>
        refine (Head.waits_of_meaning ho).mono ?_
        rintro x ⟨hx, hmissing⟩
        exact ⟨node h cs, mem_walk_self _, by simpa using hl, hx, hmissing⟩

theorem waits_of_meanings : ∀ (rs : List Rule) {os : List Outcome},
    meanings inputs rs = some os → ∀ o ∈ os, o.Waits (Lack inputs (walkAll rs))
  | [], _, hos => by
      cases hos
      simp
  | r :: rs, _, hos => by
      obtain ⟨o, ho, hos⟩ := Option.bind_eq_some_iff.mp hos
      obtain ⟨os, hrest, rfl⟩ := Option.map_eq_some_iff.mp hos
      refine List.forall_mem_cons.mpr ⟨?_, fun y hy => ?_⟩
      · exact (waits_of_meaning r ho).mono fun x hx => hx.mono (by simp [walkAll])
      · exact (waits_of_meanings rs hrest y hy).mono fun x hx => hx.mono (by simp [walkAll])

end

mutual

/-- What a rule waits for settles it. -/
theorem settles_meaning (hmore : more.Extend inputs) : ∀ (r : Rule) {o o' : Outcome},
    r.meaning inputs = some o → r.meaning more = some o' →
      o.Settles (fun x => (more.lookup x).isSome = true) o'
  | node h cs, o, o', ho, ho' => by
      rw [meaning] at ho ho'
      split at ho
      next hl =>
        rw [if_pos hl] at ho'
        obtain ⟨os, hos, ho⟩ := Option.bind_eq_some_iff.mp ho
        obtain ⟨os', hos', ho'⟩ := Option.bind_eq_some_iff.mp ho'
        exact Operator.settles_meaning (settles_meanings hmore cs hos hos') ho ho'
      next hl =>
        rw [if_neg hl] at ho'
        exact Head.settles_meaning hmore ho ho'

theorem settles_meanings (hmore : more.Extend inputs) : ∀ (rs : List Rule) {os os' : List Outcome},
    meanings inputs rs = some os → meanings more rs = some os' →
      List.Forall₂ (Outcome.Settles fun x => (more.lookup x).isSome = true) os os'
  | [], _, _, hos, hos' => by
      cases hos
      cases hos'
      exact .nil
  | r :: rs, _, _, hos, hos' => by
      obtain ⟨o, ho, hos⟩ := Option.bind_eq_some_iff.mp hos
      obtain ⟨os, hrest, rfl⟩ := Option.map_eq_some_iff.mp hos
      obtain ⟨o', ho', hos'⟩ := Option.bind_eq_some_iff.mp hos'
      obtain ⟨os', hrest', rfl⟩ := Option.map_eq_some_iff.mp hos'
      exact .cons (settles_meaning hmore r ho ho') (settles_meanings hmore rs hrest hrest')

end

end Rule

namespace RuleSet

/-- What a policy waits for settles it where all policies within its reach are declared, by
induction on how deep policies require each other. -/
theorem settles_policyMeaning (s : RuleSet) (hmore : more.Extend inputs)
    {R : String → String → Prop} (hR : ∀ a ∈ s.policies, ∀ b ∈ s.requirements a, R a b)
    (depth : Nat) (policy : String)
    (hdeclared : ∀ t, Relation.ReflTransGen R policy t → t ∈ s.policies)
    (ho : s.policyMeaning inputs depth policy = some o)
    (ho' : s.policyMeaning more depth policy = some o') :
    o.Settles (fun x => (more.lookup x).isSome = true) o' := by
  induction depth generalizing policy o o' with
  | zero => cases ho
  | succ depth ih =>
      simp only [policyMeaning, Option.bind_eq_bind, Option.bind_eq_some_iff, Option.pure_def,
        Option.some.injEq] at ho ho'
      obtain ⟨own, hown, required, hrequired, rfl⟩ := ho
      obtain ⟨own', hown', required', hrequired', rfl⟩ := ho'
      refine Outcome.settles_conjunction (List.rel_append
        (Rule.settles_meanings hmore _ hown hown') ?_)
      refine forall₂_of_mapM (fun t ht y y' hy hy' => ?_) hrequired hrequired'
      have hstep : R policy t := hR policy (hdeclared policy .refl) t ht
      have ht : t ∈ s.policies := hdeclared t (.single hstep)
      rw [if_pos ht] at hy hy'
      exact ih t (fun u hu => hdeclared u (.head hstep hu)) hy hy'

end RuleSet

end Rules

section Missing

variable {inputs : Inputs} {n : Node} {e : Evaluated}

theorem Evaluated.mem_missingOf {es : List Evaluated} {x : String} :
    x ∈ missingOf es ↔ ∃ e ∈ es, x ∈ e.missing := by
  induction es with
  | nil => simp [missingOf]
  | cons e es ih =>
      simp only [missingOf, List.map_cons, List.foldr_cons, TextSet.mem_union,
        List.exists_mem_cons_iff] at ih ⊢
      rw [ih]

theorem evaluateGiven_missing {op : Operator} {input : String × Json} {holds : Bool}
    {text : String} (h : evaluateGiven n op input holds text = .ok e) : e.missing = .empty := by
  obtain ⟨f, -, h⟩ := Attempt.bind_eq_ok.mp h
  cases h
  rfl

theorem evaluateSupplied_missing {op : Operator} {v : Operand} {text : String}
    {input : String × Json} (h : evaluateSupplied n op v text input = .ok e) :
    e.missing = .empty := by
  unfold evaluateSupplied at h
  split at h
  · exact evaluateGiven_missing h
  · exact evaluateGiven_missing h
  · exact evaluateGiven_missing h
  · cases h
  · cases h

theorem evaluateMissing_missing {op : Operator} {text : String}
    (h : evaluateMissing n op text = .ok e) : e.missing = nameSet n.subject := by
  obtain ⟨f, -, h⟩ := Attempt.bind_eq_ok.mp h
  cases h
  rfl

/-- What a comparison notes as missing is its variable, if that is not among the inputs. -/
theorem evaluateLeaf_missing (h : evaluateLeaf inputs n = .ok e) {s : String}
    (hn : n.subject = .str s) (x : String) :
    x ∈ e.missing ↔ s = x ∧ inputs.lookup x = none := by
  obtain ⟨c, -, h⟩ := Attempt.bind_eq_ok.mp h
  obtain ⟨text, -, h⟩ := Attempt.bind_eq_ok.mp h
  rw [hn, inputFor, ← Entries.lookup_eq] at h
  split at h
  · cases hs : inputs.lookup s with
    | some given =>
        rw [hs] at h
        rw [evaluateSupplied_missing h]
        refine ⟨fun hx => absurd hx (TextSet.not_mem_empty x), ?_⟩
        rintro ⟨rfl, hnone⟩
        rw [hs] at hnone
        cases hnone
    | none =>
        rw [hs] at h
        rw [evaluateMissing_missing h, hn, nameSet, TextSet.singleton, TextSet.mem_ofList,
          List.mem_singleton]
        refine ⟨?_, fun hx => hx.1.symm⟩
        rintro rfl
        exact ⟨rfl, hs⟩
  · cases h

theorem PolicyGraph.concludeRule_missing {es : List (Evaluated × Bool)}
    (h : concludeRule n es = .ok e) : e.missing = Evaluated.missingOf (es.map Prod.fst) := by
  obtain ⟨op, -, h⟩ := Attempt.bind_eq_ok.mp h
  obtain ⟨o, -, h⟩ := Attempt.bind_eq_ok.mp h
  split at h
  · cases h
  · obtain ⟨f, -, h⟩ := Attempt.bind_eq_ok.mp h
    cases h
    rfl

namespace PolicyGraph

variable {cfg : Settings} {g : PolicyGraph} {p : Plan}

/-- What the evaluation of a tree notes as missing is what its comparisons lack. -/
theorem IsDrawnFrom.mem_missing_of_evaluateRule (h : g.IsDrawnFrom cfg p) {policy : String}
    {r : Rule} (hr : (policy, r) ∈ p.placed)
    (he : g.evaluateRule inputs g.depthBound (Plan.conditionNode cfg policy r.head) = .ok e)
    (x : String) : x ∈ e.missing ↔ Rule.Lack inputs r.walk x := by
  refine h.induction_evaluateRule
    (motive := fun r e => x ∈ e.missing ↔ Rule.Lack inputs r.walk x) ?_ ?_ hr
    (h.hasTreesOf.depth_le_depthBound hr) he
  · rintro ⟨head, cs⟩ e hr hl hnone - he
    obtain rfl : cs = [] := hnone
    have hl : head.operator.isLogical = false := hl
    rw [evaluateLeaf_missing he (Plan.conditionNode_subject ..), Rule.lack_walk_iff]
    simp [hl]
  · rintro ⟨head, cs⟩ e es hr hl hbelow - he
    have hl : head.operator.isLogical = true := hl
    have hparts : List.Forall₂ (fun c y => Rule.Lack inputs c.walk x ↔ x ∈ y.missing) cs
        (es.map Prod.fst) :=
      List.forall₂_map_right_iff.mpr (hbelow.imp fun _ _ hx => hx.symm)
    rw [concludeRule_missing he, Evaluated.mem_missingOf, Rule.lack_walk_iff,
      Attempt.exists_mem_iff hparts]
    simp [hl]

/-- What a policy notes as missing is what its parts do, and its outcome is that of its only part or
the conjunction of their outcomes. -/
theorem concludePolicy_parts {es : List Evaluated} (h : g.concludePolicy n es = .ok e) :
    (∀ x, x ∈ e.missing ↔ ∃ y ∈ es, x ∈ y.missing) ∧
      (e ∈ es ∨ e.outcome = .conjunction (es.map Evaluated.outcome)) := by
  unfold concludePolicy at h
  split at h
  · cases h
    exact ⟨by simp, .inl (List.mem_singleton_self e)⟩
  · obtain ⟨clause, -, h⟩ := Attempt.bind_eq_ok.mp h
    obtain ⟨f, -, h⟩ := Attempt.bind_eq_ok.mp h
    cases h
    exact ⟨by simp, .inr rfl⟩
  · obtain ⟨clause, -, h⟩ := Attempt.bind_eq_ok.mp h
    obtain ⟨f, -, h⟩ := Attempt.bind_eq_ok.mp h
    cases h
    exact ⟨fun x => Evaluated.mem_missingOf, .inr (Outcome.conjoin_eq _ _)⟩

theorem waits_unknownPolicy {P : String → Prop} {t : String} (h : ∀ x, x = "policy:" ++ t → P x) :
    (RuleSet.unknownPolicy t).Waits P := by
  refine ⟨fun x hx => h x ?_, fun _ => ⟨"policy:" ++ t, ?_⟩⟩
  · simpa [RuleSet.unknownPolicy, TextSet.singleton] using hx
  · simp [RuleSet.unknownPolicy, TextSet.singleton]

theorem evaluateExternal_awaits {t : String} {requiredBy : Name}
    (h : g.evaluateExternal (Plan.externalNode t) requiredBy = .ok e) :
    e.missing = .empty ∧ e.outcome = RuleSet.unknownPolicy t := by
  unfold evaluateExternal at h
  split at h
  · cases h
  · obtain ⟨clause, -, h⟩ := Attempt.bind_eq_ok.mp h
    obtain ⟨f, -, h⟩ := Attempt.bind_eq_ok.mp h
    cases h
    simp [RuleSet.unknownPolicy]

end PolicyGraph

end Missing

namespace PolicyGraph

variable {cfg : Settings} {g : PolicyGraph} {p : Plan} {inputs : Inputs} {n : Node} {e : Evaluated}
  {given : String → Option Json} {a b x : String}

section Reach

/-- Whether a declared policy within reach of a policy asks for a variable that is not given. -/
def Lacks (g : PolicyGraph) (given : String → Option Json) (a x : String) : Prop :=
  ∃ b, Relation.ReflTransGen g.Requires a b ∧ g.IsInternal b ∧ g.AsksFor b x ∧ given x = none

/-- Whether a text stands for a policy within reach of a policy that is declared nowhere. -/
def AwaitsPolicy (g : PolicyGraph) (a x : String) : Prop :=
  ∃ t, x = "policy:" ++ t ∧ Relation.ReflTransGen g.Requires a t ∧ g.IsPlaceholder t

theorem Lacks.of_requires (hab : g.Requires a b) (h : g.Lacks given b x) : g.Lacks given a x :=
  h.imp fun _ hc => ⟨.head hab hc.1, hc.2⟩

theorem AwaitsPolicy.of_requires (hab : g.Requires a b) (h : g.AwaitsPolicy b x) :
    g.AwaitsPolicy a x :=
  h.imp fun _ ht => ⟨ht.1, .head hab ht.2.1, ht.2.2⟩

/-- The variables that a policy asks for are those of the comparisons placed in it. -/
theorem IsDrawnFrom.asksFor_iff (h : g.IsDrawnFrom cfg p) :
    g.AsksFor a x ↔ ∃ r, (a, r) ∈ p.placed ∧ r.head.operator.isLogical = false ∧
      r.head.subject = x := by
  constructor
  · rintro ⟨n, hn, hleaf, hpolicy, hsubject⟩
    obtain ⟨⟨policy, r⟩, hr, hcomparison, rfl⟩ := h.eq_of_isLeaf hn hleaf
    obtain rfl : policy = a := by simpa using hpolicy
    exact ⟨r, hr, hcomparison, by simpa using hsubject⟩
  · rintro ⟨r, hr, hl, rfl⟩
    exact h.asksFor hr hl

/-- What the trees of a policy lack is what the policy asks for and is not among the inputs. -/
theorem IsDrawnFrom.lack_rootsOf_iff (h : g.IsDrawnFrom cfg p) {d : Document}
    (hd : d ∈ p.documents) :
    (∃ r ∈ p.rootsOf d.policy, Rule.Lack inputs r.walk x) ↔
      g.AsksFor d.policy x ∧ inputs.lookup x = none := by
  rw [h.asksFor_iff]
  constructor
  · rintro ⟨r, hr, t, ht, hl, hx, hnone⟩
    exact ⟨⟨t, Plan.mem_placed.mpr ⟨d, hd, rfl, r, hr, ht⟩, hl, hx⟩, hnone⟩
  · rintro ⟨⟨t, ht, hl, hx⟩, hnone⟩
    obtain ⟨-, -, -, r, hr, htr⟩ := Plan.mem_placed.mp ht
    exact ⟨r, hr, t, htr, hl, hx, hnone⟩

end Reach

section Evaluation

/-- A declared policy lacks what its trees lack and what the policies that it requires lack. -/
theorem IsDrawnFrom.lacks_iff (h : g.IsDrawnFrom cfg p) {d : Document} (hd : d ∈ p.documents) :
    g.Lacks (fun x => inputs.lookup x) d.policy x ↔
      (∃ r ∈ p.rootsOf d.policy, Rule.Lack inputs r.walk x) ∨
        ∃ t ∈ d.prerequisites, g.Lacks (fun x => inputs.lookup x) t x := by
  rw [h.lack_rootsOf_iff hd]
  constructor
  · rintro ⟨b, hreach, hb, hasks, hnone⟩
    rcases Relation.ReflTransGen.cases_head hreach with rfl | ⟨t, ht, htb⟩
    · exact .inl ⟨hasks, hnone⟩
    · obtain ⟨d', hd', hpolicy, hmem⟩ := h.requires_iff.mp ht
      obtain rfl := Plan.document_eq h.sound hd' hd hpolicy
      exact .inr ⟨t, hmem, b, htb, hb, hasks, hnone⟩
  · rintro (⟨hasks, hnone⟩ | ⟨t, ht, hlacks⟩)
    · exact ⟨d.policy, .refl, h.isInternal_iff.mpr (List.mem_map_of_mem hd), hasks, hnone⟩
    · exact hlacks.of_requires (h.requires_iff.mpr ⟨d, hd, rfl, ht⟩)

/-- A policy that is declared nowhere lacks nothing. -/
theorem IsDrawnFrom.not_lacks_of_undeclared (h : g.IsDrawnFrom cfg p)
    (ha : a ∉ p.documents.map Document.policy) : ¬ g.Lacks given a x := by
  rintro ⟨b, hreach, hb, -⟩
  obtain rfl := h.eq_of_reaches ha hreach
  exact ha (h.isInternal_iff.mp hb)

/-- Whether an evaluation notes as missing what is lacking within reach of a policy, and waits for
that and for policies that are declared nowhere. -/
structure AccountsFor (g : PolicyGraph) (inputs : Inputs) (policy : String) (e : Evaluated) :
    Prop where
  missing : ∀ x, g.Lacks (fun x => inputs.lookup x) policy x ↔ x ∈ e.missing
  waits : e.outcome.Waits fun x =>
    g.Lacks (fun x => inputs.lookup x) policy x ∨ g.AwaitsPolicy policy x

/-- A policy that is declared nowhere lacks nothing and awaits itself. -/
theorem IsDrawnFrom.accountsFor_external (h : g.IsDrawnFrom cfg p) {d : Document}
    (hd : d ∈ p.documents) {t : String} (ht : t ∈ d.prerequisites)
    (hundeclared : t ∉ p.documents.map Document.policy) {requiredBy : Name}
    (he : g.evaluateExternal (Plan.externalNode t) requiredBy = .ok e) :
    g.AccountsFor inputs t e := by
  obtain ⟨hnone, hunknown⟩ := evaluateExternal_awaits he
  have hplaceholder : g.IsPlaceholder t :=
    h.isPlaceholder_of_requires (h.requires_iff.mpr ⟨d, hd, rfl, ht⟩) fun hinternal =>
      hundeclared (h.isInternal_iff.mp hinternal)
  refine ⟨fun x => ?_, ?_⟩
  · rw [hnone]
    exact ⟨fun hx => absurd hx (h.not_lacks_of_undeclared hundeclared),
      fun hx => absurd hx (TextSet.not_mem_empty x)⟩
  · rw [hunknown]
    exact waits_unknownPolicy fun x hx => .inr ⟨t, hx, .refl, hplaceholder⟩

/-- The evaluations of the top-level rules of a policy note and wait for what the rules lack. -/
theorem IsDrawnFrom.forall₂_lack_roots (h : g.IsDrawnFrom cfg p) {d : Document}
    (hd : d ∈ p.documents) {own : List Evaluated}
    (hown : g.evaluateRoots inputs (.str d.policy) = .ok own) :
    List.Forall₂ (fun r y => (∀ x, Rule.Lack inputs r.walk x ↔ x ∈ y.missing) ∧
      y.outcome.Waits (Rule.Lack inputs r.walk)) (p.rootsOf d.policy) own := by
  refine (h.forall₂_roots hd hown).imp fun r y ⟨hr, hy⟩ => ?_
  refine ⟨fun x => (h.mem_missing_of_evaluateRule hr hy x).symm, r.waits_of_meaning ?_⟩
  rw [← evaluateRule_outcome h inputs hr (h.hasTreesOf.depth_le_depthBound hr), hy]
  rfl

/-- A policy accounts for what it lacks where its parts do. -/
theorem IsDrawnFrom.accountsFor_concludePolicy (h : g.IsDrawnFrom cfg p) {d : Document}
    (hd : d ∈ p.documents) {own required : List Evaluated}
    (hown : List.Forall₂ (fun r y => (∀ x, Rule.Lack inputs r.walk x ↔ x ∈ y.missing) ∧
      y.outcome.Waits (Rule.Lack inputs r.walk)) (p.rootsOf d.policy) own)
    (hrequired : List.Forall₂ (fun t y => t ∈ d.prerequisites ∧ g.AccountsFor inputs t y)
      (RuleSet.firstTexts [] d.prerequisites) required)
    (he : g.concludePolicy n (own ++ required) = .ok e) :
    g.AccountsFor inputs d.policy e := by
  obtain ⟨hmissing, houtcome⟩ := concludePolicy_parts he
  constructor
  · intro x
    have hroots := Attempt.exists_mem_iff (hown.imp fun _ _ hy => hy.1 x)
    have hbelow := Attempt.exists_mem_iff (hrequired.imp fun _ _ hy => hy.2.missing x)
    simp only [Plan.mem_firstTexts, List.not_mem_nil, not_false_eq_true, and_true] at hbelow
    rw [hmissing, h.lacks_iff hd, hroots, hbelow]
    simp only [List.mem_append, or_and_right, exists_or]
  · have hwaits : ∀ y ∈ own ++ required, y.outcome.Waits fun x =>
        g.Lacks (fun x => inputs.lookup x) d.policy x ∨ g.AwaitsPolicy d.policy x := by
      intro y hy
      rcases List.mem_append.mp hy with hy | hy
      · obtain ⟨r, hr, -, hwaits⟩ := Attempt.exists_left hown hy
        exact hwaits.mono fun x hx => .inl ((h.lacks_iff hd).mpr (.inl ⟨r, hr, hx⟩))
      · obtain ⟨t, -, ht, haccounts⟩ := Attempt.exists_left hrequired hy
        have hrequires : g.Requires d.policy t := h.requires_iff.mpr ⟨d, hd, rfl, ht⟩
        exact haccounts.waits.mono fun x hx =>
          hx.imp (Lacks.of_requires hrequires) (AwaitsPolicy.of_requires hrequires)
    rcases houtcome with hpart | hconjunction
    · exact hwaits e hpart
    · rw [hconjunction]
      exact Outcome.waits_conjunction (List.forall_mem_map.mpr hwaits)

/-- The evaluation of a declared policy accounts for what the policy lacks. -/
theorem IsDrawnFrom.accountsFor_evaluatePolicyTo (h : g.IsDrawnFrom cfg p) {fuel : Nat}
    {stack : List String} {d : Document} (hd : d ∈ p.documents) {e : Evaluated}
    (he : g.evaluatePolicyTo inputs fuel (stack.map .str)
      (Plan.policyNode cfg d (p.rootsOf d.policy)) = .ok e) :
    g.AccountsFor inputs d.policy e := by
  refine h.induction_evaluatePolicyTo (motive := fun _ d e => g.AccountsFor inputs d.policy e) ?_
    hd he
  intro stack d own required e hd hmem hown hrequired he
  refine h.accountsFor_concludePolicy hd (h.forall₂_lack_roots hd hown) (hrequired.imp ?_) he
  rintro t y ⟨ht, ⟨d', hd', rfl, hy⟩ | ⟨hundeclared, hy⟩⟩
  · exact ⟨ht, hy⟩
  · exact ⟨ht, h.accountsFor_external hd ht hundeclared hy⟩

end Evaluation

section Verdicts

theorem filter_warnings (xs : List String) (y : Number) :
    (xs.map missingWarning ++ confidenceWarnings cfg y).filter
      (fun w => decide (w.kind = .missingInput)) = xs.map missingWarning := by
  have hconfidence : (confidenceWarnings cfg y).filter
      (fun w => decide (w.kind = .missingInput)) = [] := by
    unfold confidenceWarnings
    split <;> simp
  rw [List.filter_append, hconfidence, List.append_nil]
  exact List.filter_eq_self.mpr fun w hw => by
    obtain ⟨x, -, rfl⟩ := List.mem_map.mp hw
    rfl

/-- A verdict warns of what is lacking within reach of the policy, and an undetermined one asks for
some of that and for policies that are declared nowhere. -/
theorem IsDrawnFrom.missing_of_verdict (h : g.IsDrawnFrom cfg p) {policy : String} {v : Verdict}
    (hv : g.verdict cfg inputs (.str policy) = .ok v) :
    (∃ xs : List String, xs.Pairwise (· < ·) ∧
      v.warnings.filter (fun w => decide (w.kind = .missingInput)) = xs.map missingWarning ∧
      ∀ x, x ∈ xs ↔ g.Lacks (fun x => inputs.lookup x) policy x) ∧
    ∀ rs, v.requirements = some rs → rs ≠ [] ∧ rs.Pairwise (· < ·) ∧
      ∀ x ∈ rs, g.Lacks (fun x => inputs.lookup x) policy x ∨ g.AwaitsPolicy policy x := by
  obtain ⟨n, hn, hv⟩ := Attempt.bind_eq_ok.mp hv
  obtain ⟨e, he, hv⟩ := Attempt.bind_eq_ok.mp hv
  cases hv
  obtain ⟨d, hd, rfl, rfl⟩ := h.exists_document hn
  rw [evaluatePolicy, ← List.map_nil (f := Json.str)] at he
  obtain ⟨hmissing, hwaits⟩ := h.accountsFor_evaluatePolicyTo hd he
  refine ⟨⟨e.missing.members, e.missing.ordered, filter_warnings _ _, fun x => (hmissing x).symm⟩,
    fun rs hrs => ?_⟩
  cases hvalue : e.outcome.value with
  | some b => simp [hvalue] at hrs
  | none =>
      obtain rfl : e.outcome.pending.members = rs := by simpa [hvalue] using hrs
      obtain ⟨x, hx⟩ := hwaits.exists_pending hvalue
      exact ⟨List.ne_nil_of_mem hx, e.outcome.pending.ordered, hwaits.pending⟩

/-- Where a policy waits for inputs only, a verdict on inputs that give all of them waits for
nothing. -/
theorem settled_of_verdicts {s : RuleSet} (hs : s.validate cfg = .ok s)
    (hg : (s.build cfg).outcome = .ok g) {policy : String}
    (hnone : ∀ t, Relation.ReflTransGen g.Requires policy t → ¬ g.IsPlaceholder t) {more : Inputs}
    (hmore : more.Extend inputs) {v w : Verdict} (hv : g.verdict cfg inputs (.str policy) = .ok v)
    (hw : g.verdict cfg more (.str policy) = .ok w) {rs : List String}
    (hrs : v.requirements = some rs) (hgiven : ∀ x ∈ rs, (more.lookup x).isSome = true) :
    w.requirements = none := by
  obtain ⟨p, hp, h⟩ := isDrawnFrom_of_build hs hg
  have hplan := (RuleSet.checkedPlan_spec hp).1
  obtain ⟨-, hpolicy, o, ho, -, -, hrequirements⟩ := meaning_of_verdict hs hg hv
  obtain ⟨-, -, o', ho', -, -, hrequirements'⟩ := meaning_of_verdict hs hg hw
  rw [← Plan.policies_eq hplan] at hpolicy
  have hdeclared : ∀ t, Relation.ReflTransGen g.Requires policy t → t ∈ s.policies := by
    intro t ht
    rw [← Plan.policies_eq hplan]
    exact h.isInternal_iff.mp (h.isInternal_of_reachable (h.isInternal_iff.mpr hpolicy) hnone ht)
  have hrequires : ∀ a ∈ s.policies, ∀ b ∈ s.requirements a, g.Requires a b := by
    intro a ha b hb
    rw [← Plan.policies_eq hplan] at ha
    obtain ⟨d, hd, rfl⟩ := List.mem_map.mp ha
    rw [← Plan.requirements_eq (RuleSet.isAccepted_of_validate hs).1 hplan hd] at hb
    exact h.requires_iff.mpr ⟨d, hd, rfl, (Plan.mem_firstTexts.mp hb).1⟩
  have hsettles := s.settles_policyMeaning hmore hrequires _ policy hdeclared ho ho'
  rw [hrequirements] at hrs
  split at hrs
  · cases hrs
    rw [hrequirements', if_neg]
    simpa using hsettles.determined hgiven
  · cases hrs

/-- The missing inputs that a verdict warns of are the variables that the policy and the declared
policies within its reach ask for and that are not given, sorted and each once.  What a verdict
asks for is not empty, is sorted, and is among these variables and the policies within reach that
are declared nowhere; where there are no such policies, a verdict on inputs that also give all
that was asked for asks for nothing. -/
theorem missing_of_evaluate (hg : g.IsCompiled cfg) {policy : String} {inputs : Json}
    {es : Entries Json} (hes : Fault.mappingOrEmpty inputs = .ok es) {v : Verdict}
    (hv : (g.evaluate cfg (.str policy) inputs).outcome = .ok v) :
    (∃ xs : List String, xs.Pairwise (· < ·) ∧
      v.warnings.filter (fun w => decide (w.kind = .missingInput)) = xs.map missingWarning ∧
      ∀ x, x ∈ xs ↔ g.Lacks es.get? policy x) ∧
    ∀ rs, v.requirements = some rs →
      (rs ≠ [] ∧ rs.Pairwise (· < ·) ∧
        ∀ x ∈ rs, g.Lacks es.get? policy x ∨ g.AwaitsPolicy policy x) ∧
      ((∀ t, Relation.ReflTransGen g.Requires policy t → ¬ g.IsPlaceholder t) →
        ∀ (more : Json) (fs : Entries Json) (w : Verdict), Fault.mappingOrEmpty more = .ok fs →
          fs.Extend es → (∀ x ∈ rs, (fs.get? x).isSome = true) →
          (g.evaluate cfg (.str policy) more).outcome = .ok w → w.requirements = none) := by
  obtain ⟨s, hs, hbuild⟩ := hg
  obtain ⟨p, -, h⟩ := isDrawnFrom_of_build hs hbuild
  obtain ⟨q, hq, hverdict⟩ := verdict_of_evaluate hes hv
  obtain ⟨hpolicy, hread⟩ := Query.check_eq_ok hq
  rw [← hpolicy] at hverdict
  have hlookup : (fun x => q.inputs.lookup x) = es.get? := funext (lookup_of_inputEntries hread)
  obtain ⟨hwarnings, hrequirements⟩ := h.missing_of_verdict hverdict
  rw [hlookup] at hwarnings hrequirements
  refine ⟨hwarnings, fun rs hrs => ⟨hrequirements rs hrs, ?_⟩⟩
  intro hnone more fs w hfs hextend hgiven hw
  obtain ⟨q', hq', hverdict'⟩ := verdict_of_evaluate hfs hw
  obtain ⟨hpolicy', hread'⟩ := Query.check_eq_ok hq'
  rw [← hpolicy'] at hverdict'
  refine settled_of_verdicts hs hbuild hnone (fun x y hx => ?_) hverdict hverdict' hrs
    fun x hx => ?_
  · rw [lookup_of_inputEntries hread] at hx
    rw [lookup_of_inputEntries hread']
    exact hextend x y hx
  · rw [lookup_of_inputEntries hread']
    exact hgiven x hx

end Verdicts

section Witness

/-- The permit and the home are declared, and no other policy is mentioned. -/
theorem IsDrawnFrom.not_isPlaceholder_permit (h : g.IsDrawnFrom .standard permitPlan) (t : String) :
    ¬ g.IsPlaceholder t := by
  rintro ⟨n, hn, hkind, hexternal, -⟩
  have hnone : ∀ d ∈ permitPlan.documents, permitPlan.undeclared d = [] := by decide +kernel
  rcases h.eq_of_policy hn hkind with ⟨d, -, rfl⟩ | ⟨d, hd, t, ht, -⟩
  · simp at hexternal
  · rw [hnone d hd] at ht
    exact List.not_mem_nil ht

/-- For an age alone the permit asks for a residence and a status, and values for them settle it,
though one of them is not even a text. -/
theorem missing_of_evaluate_permit : ∃ (g : PolicyGraph) (v w : Verdict),
    g.IsCompiled .standard ∧
    (g.evaluate .standard (.str "permit") (.obj [("age", .int 30)])).outcome = .ok v ∧
    (g.evaluate .standard (.str "permit")
      (.obj [("age", .int 30), ("residence", .str "here"), ("status", .int 7)])).outcome = .ok w ∧
    v.requirements = some ["residence", "status"] ∧
    (∃ xs : List String, xs.Pairwise (· < ·) ∧
      v.warnings.filter (fun w => decide (w.kind = .missingInput)) = xs.map missingWarning ∧
      ∀ x, x ∈ xs ↔ g.Lacks (Entries.ofFields [("age", .int 30)]).get? "permit" x) ∧
    w.requirements = none := by
  obtain ⟨g, hvalid, hbuild, h⟩ := exists_permit
  have hg : g.IsCompiled .standard := ⟨permit, hvalid, hbuild⟩
  obtain ⟨v, o, hv, ho, -, hrequirements⟩ := h.exists_verdict_permit hvalid hbuild
    [("age", .int 30)] rfl rfl (by simpa [Rule.InRange] using by decide +kernel)
  obtain ⟨w, -, hw, -⟩ := h.exists_verdict_permit hvalid hbuild
    [("age", .int 30), ("residence", .str "here"), ("status", .int 7)] rfl rfl
    (by simpa [Rule.InRange] using by decide +kernel)
  have hmeaning : (permit.meaning [("age", .int 30)] "permit").map
      (fun o => (o.value, o.pending.members)) = some (none, ["residence", "status"]) := by
    decide +kernel
  rw [ho, Option.map_some, Option.some.injEq, Prod.mk.injEq] at hmeaning
  rw [hmeaning.1, hmeaning.2] at hrequirements
  obtain ⟨hwarnings, hasked⟩ := missing_of_evaluate hg rfl hv
  refine ⟨g, v, w, hg, hv, hw, hrequirements, hwarnings, ?_⟩
  refine (hasked _ hrequirements).2 (fun t _ => h.not_isPlaceholder_permit t) _ _ w rfl ?_ ?_ hw
  · intro x y hx
    rw [Entries.get?_ofFields] at hx ⊢
    by_cases hage : x = "age"
    · subst hage
      exact hx
    · have hage : (x == "age") = false := by simpa using hage
      simp [List.lookup_cons, hage] at hx
  · decide +kernel

end Witness

end PolicyGraph

end Eligibility
