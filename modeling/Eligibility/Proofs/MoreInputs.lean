import Eligibility.Proofs.Verdicts
/-!
# Decisions under more inputs

**Inputs.**  Inputs extend others that they agree with wherever the others give a value.

**Outcomes.**  More inputs decide more conditions and change none that was decided; they never
touch a confidence.  Kleene's tables keep this: an operand that is decided later turns no
combination over.

**Results.**
* `Kleene.and_persists`, `Kleene.or_persists`, `Kleene.not_persists`: the tables.
* `Rule.persists_meaning`, `RuleSet.persists_policyMeaning`: rules and policies.
* `evaluate_extended`: a verdict that waits for nothing is also that under more inputs.
-/

namespace Eligibility
open Schema

namespace Kleene

/-- Whether a value is kept by another one: it is undetermined, or the other one is the same. -/
def Persists (v w : Option Bool) : Prop := v = none ∨ w = v

variable {v w v' w' : Option Bool}

@[simp] theorem persists_none : Persists none w := .inl rfl

@[simp] theorem persists_some {b : Bool} : Persists (some b) w ↔ w = some b := by
  simp [Persists]

theorem and_persists (hv : Persists v v') (hw : Persists w w') :
    Persists (and v w) (and v' w') := by
  rcases v with _ | _ | _
  · -- an undetermined operand leaves only false operands decided
    rcases w with _ | _ | _
    · exact persists_none
    · rw [persists_some.mp hw]
      rcases v' with _ | _ | _ <;> exact persists_some.mpr rfl
    · exact persists_none
  · rw [persists_some.mp hv]
    exact persists_some.mpr rfl
  · rw [persists_some.mp hv]
    rcases w with _ | _ | _
    · exact persists_none
    · rw [persists_some.mp hw]
      exact persists_some.mpr rfl
    · rw [persists_some.mp hw]
      exact persists_some.mpr rfl

theorem not_persists (hv : Persists v v') : Persists (not v) (not v') := by
  rcases v with _ | _ | _
  · exact persists_none
  · rw [persists_some.mp hv]
    exact persists_some.mpr rfl
  · rw [persists_some.mp hv]
    exact persists_some.mpr rfl

/-- Disjunction is conjunction between negations. -/
theorem or_eq (v w : Option Bool) : or v w = not (and (not v) (not w)) := by
  rcases v with _ | _ | _ <;> rcases w with _ | _ | _ <;> rfl

theorem or_persists (hv : Persists v v') (hw : Persists w w') :
    Persists (or v w) (or v' w') := by
  rw [or_eq, or_eq]
  exact not_persists (and_persists (not_persists hv) (not_persists hw))

theorem foldr_persists {f : Option Bool → Option Bool → Option Bool}
    (hf : ∀ {v w v' w'}, Persists v v' → Persists w w' → Persists (f v w) (f v' w'))
    (u : Option Bool) {vs ws : List (Option Bool)} (h : List.Forall₂ Persists vs ws) :
    Persists (vs.foldr f u) (ws.foldr f u) := by
  induction h with
  | nil => exact .inr rfl
  | cons hvw _ ih => exact hf hvw ih

end Kleene

namespace Outcome

/-- Whether an outcome is kept by another one, which may decide what it leaves undetermined. -/
structure Persists (o o' : Outcome) : Prop where
  value : Kleene.Persists o.value o'.value
  confidence : o'.confidence = o.confidence

variable {o o' : Outcome} {os os' : List Outcome}

theorem Persists.refl (o : Outcome) : o.Persists o := ⟨.inr rfl, rfl⟩

theorem map_confidence (h : List.Forall₂ Persists os os') :
    os'.map confidence = os.map confidence :=
  Attempt.map_eq_map_of_forall₂ (h.imp fun _ _ hx => hx.confidence)

theorem map_value (h : List.Forall₂ Persists os os') :
    List.Forall₂ Kleene.Persists (os.map value) (os'.map value) := by
  rw [List.forall₂_map_left_iff, List.forall₂_map_right_iff]
  exact h.imp fun _ _ hx => hx.value

theorem persists_conjunction (h : List.Forall₂ Persists os os') :
    (conjunction os).Persists (conjunction os') where
  value := Kleene.foldr_persists Kleene.and_persists _ (map_value h)
  confidence := by simp only [conjunction, map_confidence h]

theorem persists_disjunction (h : List.Forall₂ Persists os os') :
    (disjunction os).Persists (disjunction os') where
  value := Kleene.foldr_persists Kleene.or_persists _ (map_value h)
  confidence := by simp only [disjunction, map_confidence h]

theorem persists_negation (h : o.Persists o') : o.negation.Persists o'.negation :=
  ⟨Kleene.not_persists h.value, h.confidence⟩

end Outcome

/-- Partial maps whose values are related have related values along a list. -/
theorem forall₂_of_mapM {α β : Type} {R : β → β → Prop} {f f' : α → Option β} {xs : List α}
    (hf : ∀ x ∈ xs, ∀ y y', f x = some y → f' x = some y' → R y y') {ys ys' : List β}
    (h : xs.mapM f = some ys) (h' : xs.mapM f' = some ys') : List.Forall₂ R ys ys' := by
  induction xs generalizing ys ys' with
  | nil => cases h; cases h'; exact .nil
  | cons x r ih =>
      simp only [List.mapM_cons, Option.bind_eq_bind, Option.bind_eq_some_iff, Option.pure_def,
        Option.some.injEq] at h h'
      obtain ⟨y, hy, zs, hzs, rfl⟩ := h
      obtain ⟨y', hy', zs', hzs', rfl⟩ := h'
      exact .cons (hf x List.mem_cons_self y y' hy hy')
        (ih (fun z hz => hf z (List.mem_cons_of_mem x hz)) hzs hzs')

/-- Inputs that agree with other inputs wherever those give a value. -/
def Inputs.Extend (more inputs : Inputs) : Prop :=
  ∀ x v, inputs.lookup x = some v → more.lookup x = some v

section Rules

variable {inputs more : Inputs} {o o' : Outcome}

/-- A comparison that an input decides is decided the same way where the input is kept. -/
theorem Head.persists_meaning (hmore : more.Extend inputs) {h : Head}
    (ho : h.meaning inputs = some o) (ho' : h.meaning more = some o') : o.Persists o' := by
  cases hv : h.value with
  | none => simp [Head.meaning, hv] at ho
  | some v =>
  cases hx : h.confidence with
  | none => simp [Head.meaning, hv, hx] at ho
  | some x =>
  cases hgiven : inputs.lookup h.subject with
  | some given =>
      -- the input is among those given before, so both meanings are one
      simp only [Head.meaning, hv, hx, hgiven] at ho
      simp only [Head.meaning, hv, hx, hmore _ _ hgiven, ho] at ho'
      cases ho'
      exact .refl o
  | none =>
      simp only [Head.meaning, hv, hx, hgiven, Option.some.injEq] at ho
      subst ho
      refine ⟨Kleene.persists_none, ?_⟩
      simp only [Head.meaning, hv, hx] at ho'
      split at ho'
      · cases ho'; rfl
      · split at ho' <;> cases ho' <;> rfl

theorem Operator.persists_meaning {op : Operator} {os os' : List Outcome}
    (h : List.Forall₂ Outcome.Persists os os') (ho : op.meaning os = some o)
    (ho' : op.meaning os' = some o') : o.Persists o' := by
  unfold Operator.meaning at ho
  split at ho
  · cases ho
    cases ho'
    exact Outcome.persists_conjunction h
  · cases ho
    cases ho'
    exact Outcome.persists_disjunction h
  · cases ho
    cases h with
    | cons hx hnil =>
        cases hnil
        cases ho'
        exact Outcome.persists_negation hx
  · cases ho

namespace Rule

mutual

/-- More inputs keep what a rule means. -/
theorem persists_meaning (hmore : more.Extend inputs) : ∀ (r : Rule) {o o' : Outcome},
    r.meaning inputs = some o → r.meaning more = some o' → o.Persists o'
  | node h cs, o, o', ho, ho' => by
      rw [meaning] at ho ho'
      split at ho
      next hl =>
        rw [if_pos hl] at ho'
        obtain ⟨os, hos, ho⟩ := Option.bind_eq_some_iff.mp ho
        obtain ⟨os', hos', ho'⟩ := Option.bind_eq_some_iff.mp ho'
        exact Operator.persists_meaning (persists_meanings hmore cs hos hos') ho ho'
      next hl =>
        rw [if_neg hl] at ho'
        exact Head.persists_meaning hmore ho ho'

theorem persists_meanings (hmore : more.Extend inputs) : ∀ (rs : List Rule) {os os' : List Outcome},
    meanings inputs rs = some os → meanings more rs = some os' →
      List.Forall₂ Outcome.Persists os os'
  | [], _, _, hos, hos' => by
      cases hos
      cases hos'
      exact .nil
  | r :: rs, os, os', hos, hos' => by
      obtain ⟨o, ho, hos⟩ := Option.bind_eq_some_iff.mp hos
      obtain ⟨os₀, hrest, rfl⟩ := Option.map_eq_some_iff.mp hos
      obtain ⟨o', ho', hos'⟩ := Option.bind_eq_some_iff.mp hos'
      obtain ⟨os₀', hrest', rfl⟩ := Option.map_eq_some_iff.mp hos'
      exact .cons (persists_meaning hmore r ho ho') (persists_meanings hmore rs hrest hrest')

end

end Rule

namespace RuleSet

/-- More inputs keep what a policy means, by induction on how deep policies require each
other. -/
theorem persists_policyMeaning (s : RuleSet) (hmore : more.Extend inputs) (depth : Nat)
    (policy : String) {o o' : Outcome} (ho : s.policyMeaning inputs depth policy = some o)
    (ho' : s.policyMeaning more depth policy = some o') : o.Persists o' := by
  induction depth generalizing policy o o' with
  | zero => cases ho
  | succ depth ih =>
      simp only [policyMeaning, Option.bind_eq_bind, Option.bind_eq_some_iff, Option.pure_def,
        Option.some.injEq] at ho ho'
      obtain ⟨own, hown, required, hrequired, rfl⟩ := ho
      obtain ⟨own', hown', required', hrequired', rfl⟩ := ho'
      have hrules : List.Forall₂ Outcome.Persists own own' :=
        Rule.persists_meanings hmore _ hown hown'
      have hpolicies : List.Forall₂ Outcome.Persists required required' := by
        refine forall₂_of_mapM (fun t _ y y' hy hy' => ?_) hrequired hrequired'
        split at hy
        next ht =>
          rw [if_pos ht] at hy'
          exact ih t hy hy'
        next ht =>
          -- a policy that is only mentioned waits whatever is given
          rw [if_neg ht] at hy'
          cases hy
          cases hy'
          exact .refl _
      exact Outcome.persists_conjunction (List.rel_append hrules hpolicies)

end RuleSet

end Rules

section Entries

/-- Entries that agree with other entries wherever those have a value. -/
def Entries.Extend (more entries : Entries Json) : Prop :=
  ∀ x v, entries.get? x = some v → more.get? x = some v

theorem Schema.input_eq_ok {v w : Json} (h : Schema.input v = .ok w) : w = v := by
  unfold Schema.input at h
  split at h
  · cases h
  · cases h
  · split at h <;> cases h
    rfl
  · cases h
    rfl

/-- Inputs are looked up as the entries they were read from. -/
theorem Schema.lookup_of_inputEntries {es : Entries Json} {inputs : Inputs}
    (h : Schema.inputEntries es = .ok inputs) (x : String) : inputs.lookup x = es.get? x := by
  induction es generalizing inputs with
  | nil => cases h; rfl
  | cons e r ih =>
      obtain ⟨n, v⟩ := e
      rw [Schema.inputEntries] at h
      cases hr : Schema.inputEntries r with
      | flawed fs =>
          rw [hr] at h
          revert h
          cases n <;> cases hv : Schema.input v <;>
            simp [Schema.inputName, Schema.text, Checked.ap, Checked.map, Checked.under,
              Checked.fail]
      | ok rest =>
          rw [hr] at h
          cases hv : Schema.input v with
          | flawed fs =>
              rw [hv] at h
              revert h
              cases n <;>
                simp [Schema.inputName, Schema.text, Checked.ap, Checked.map, Checked.under,
                  Checked.fail]
          | ok w =>
              obtain rfl := Schema.input_eq_ok hv
              rw [hv] at h
              cases n with
              | str s =>
                  simp only [Schema.inputName, Schema.text, Checked.under_ok, Checked.map_ok,
                    Checked.ap_ok, Checked.ok.injEq] at h
                  subst h
                  by_cases hs : s = x
                  · simp [Entries.get?, hs]
                  · have hs' : (x == s) = false := by simpa using fun e => hs e.symm
                    rw [List.lookup_cons, hs', Entries.get?, ← ih hr]
                    simp [hs]
              | _ =>
                  simp [Schema.inputName, Schema.text, Checked.ap, Checked.map, Checked.under,
                    Checked.fail] at h

theorem Query.check_eq_ok {policy : Json} {es : Entries Json} {q : Query}
    (h : Query.check policy es = .ok q) :
    policy = .str q.policy ∧ Schema.inputEntries es = .ok q.inputs := by
  unfold Query.check at h
  cases hi : Schema.inputEntries es with
  | flawed fs =>
      rw [hi] at h
      cases hp : nonEmptyText policy <;> simp [hp, Checked.under, Checked.map, Checked.ap] at h
  | ok inputs =>
      rw [hi] at h
      cases policy with
      | str s =>
          by_cases hs : s = ""
          · simp [nonEmptyText, hs, Checked.fail, Checked.under, Checked.map] at h
          · simp only [nonEmptyText, hs, if_false, Checked.under_ok, Checked.map_ok, Checked.ap_ok,
              Checked.ok.injEq] at h
            subst h
            exact ⟨rfl, rfl⟩
      | _ => simp [nonEmptyText, Checked.fail, Checked.under, Checked.map] at h

end Entries

section Verdicts

variable {cfg : Settings} {g : PolicyGraph}

theorem PolicyGraph.verdict_of_evaluate {policy inputs : Json} {es : Entries Json} {v : Verdict}
    (hes : Fault.mappingOrEmpty inputs = .ok es)
    (h : (g.evaluate cfg policy inputs).outcome = .ok v) :
    ∃ q, Query.check policy es = .ok q ∧ g.verdict cfg q.inputs (.str q.policy) = .ok v := by
  cases hq : Query.check policy es with
  | flawed fs => simp [evaluate, answerChecked, hes, hq] at h
  | ok q =>
      rw [evaluate_eq_answer cfg g hes hq, answer, run_outcome] at h
      exact ⟨q, rfl, h⟩

/-- The status of an outcome that waits for nothing is that of every outcome that keeps it. -/
theorem Outcome.Persists.statusOf {o o' : Outcome} (h : o.Persists o') (hv : o.value ≠ none) :
    PolicyGraph.statusOf cfg o' = PolicyGraph.statusOf cfg o := by
  obtain ⟨b, hb⟩ := Option.ne_none_iff_exists'.mp hv
  have hb' : o'.value = some b := Kleene.persists_some.mp (hb ▸ h.value)
  rw [PolicyGraph.statusOf, PolicyGraph.statusOf, hb, hb', h.confidence]

/-- A verdict that waits for no input is the verdict under all inputs that extend those it was
reached from: more inputs never turn a decision over. -/
theorem PolicyGraph.evaluate_extended (hg : g.IsCompiled cfg) {policy inputs more : Json}
    {es fs : Entries Json} (hinputs : Fault.mappingOrEmpty inputs = .ok es)
    (hmore : Fault.mappingOrEmpty more = .ok fs) (hextend : fs.Extend es) {v w : Verdict}
    (hv : (g.evaluate cfg policy inputs).outcome = .ok v) (hdecided : v.requirements = none)
    (hw : (g.evaluate cfg policy more).outcome = .ok w) :
    w.status = v.status ∧ w.confidence = v.confidence ∧ w.requirements = none := by
  obtain ⟨s, hs, hbuild⟩ := hg
  obtain ⟨q, hq, hv⟩ := verdict_of_evaluate hinputs hv
  obtain ⟨q', hq', hw⟩ := verdict_of_evaluate hmore hw
  obtain ⟨hpolicy, hread⟩ := Query.check_eq_ok hq
  obtain ⟨hpolicy', hread'⟩ := Query.check_eq_ok hq'
  have hsame : q'.policy = q.policy := Json.str.inj (hpolicy'.symm.trans hpolicy)
  obtain ⟨-, -, o, ho, hstatus, hconfidence, hrequirements⟩ := meaning_of_verdict hs hbuild hv
  obtain ⟨-, -, o', ho', hstatus', hconfidence', hrequirements'⟩ := meaning_of_verdict hs hbuild hw
  rw [hsame] at ho'
  have hkept : q'.inputs.Extend q.inputs := fun x y hx => by
    rw [Schema.lookup_of_inputEntries hread] at hx
    rw [Schema.lookup_of_inputEntries hread']
    exact hextend x y hx
  have hpersists : o.Persists o' := s.persists_policyMeaning hkept _ _ ho ho'
  have hvalue : o.value ≠ none := by
    intro hnone
    rw [hrequirements, hnone] at hdecided
    cases hdecided
  refine ⟨?_, ?_, ?_⟩
  · rw [hstatus', hstatus, hpersists.statusOf hvalue]
  · rw [hconfidence', hconfidence, hpersists.confidence]
  · obtain ⟨b, hb⟩ := Option.ne_none_iff_exists'.mp hvalue
    have hb' : o'.value = some b := Kleene.persists_some.mp (hb ▸ hpersists.value)
    rw [hrequirements', hb']
    rfl

end Verdicts

section Witness

/-- The lone policy gets the verdict of its meaning on inputs in range. -/
theorem PolicyGraph.exists_verdict_of_lone {g : PolicyGraph}
    (hvalid : lone.validate .standard = .ok lone) (hg : (lone.build .standard).outcome = .ok g)
    (h : g.IsDrawnFrom .standard lonePlan) {fs : Inputs} (hquery : Query.check (.str "p") (Entries.ofFields fs) = .ok ⟨"p", fs⟩)
    (hmapping : Fault.mappingOrEmpty (.obj fs) = .ok (Entries.ofFields fs))
    (hin : Rule.InRange fs) :
    ∃ v o, (g.evaluate .standard (.str "p") (.obj fs)).outcome = .ok v ∧
      lone.meaning fs "p" = some o ∧ v.status = statusOf .standard o ∧
      v.requirements = if o.value.isNone then some o.pending.members else none := by
  have hp : g.IsInternal "p" := h.isInternal_iff.mpr List.mem_cons_self
  have hprecheck : ∀ a, g.IsInternal a → g.precheck (.str a) = .ok () := by
    intro a ha
    obtain rfl : a = "p" := by simpa [lonePlan, lone] using h.isInternal_iff.mp ha
    have hd : { policy := "p", clauses := [{ id := "c" }], prerequisites := ["q"] } ∈
        lonePlan.documents := List.mem_cons_self
    have hok := h.precheck_of_comparison hd (by simp [lonePlan, lone, Plan.rootsOf])
      (by simp [lonePlan, lone, Plan.rootsOf, Operator.isLogical])
    exact hok
  rcases h.evaluate_cases hprecheck hmapping hquery hin hp with
    ⟨v, hv, -⟩ | ⟨cycle, clauses, -, hcircle⟩
  · obtain ⟨q, hq, hverdict⟩ := verdict_of_evaluate hmapping hv
    obtain rfl : (⟨"p", fs⟩ : Query) = q := by simpa [hquery] using hq
    obtain ⟨-, -, o, ho, hstatus, -, hrequirements⟩ := meaning_of_verdict hvalid hg hverdict
    exact ⟨v, o, hv, ho, hstatus, hrequirements⟩
  · obtain ⟨a, -, hcircular⟩ := hcircle.exists_isCircular
    obtain ⟨b, ⟨-, hb, hab⟩, -⟩ := Relation.TransGen.head'_iff.mp hcircular
    obtain ⟨d, hd, -, hbd⟩ := h.requires_iff.mp hab
    have hb := h.isInternal_iff.mp hb
    simp [lonePlan, lone] at hd hb
    simp [hd, hb] at hbd

theorem PolicyGraph.exists_lone : ∃ g : PolicyGraph, lone.validate .standard = .ok lone ∧
    (lone.build .standard).outcome = .ok g ∧ g.IsDrawnFrom .standard lonePlan :=
  exists_build (by decide +kernel) rfl (by decide +kernel)

/-- The lone policy gets the verdict of its meaning on inputs in range. -/
theorem PolicyGraph.exists_verdict_lone : ∃ g : PolicyGraph, g.IsCompiled .standard ∧
    ∀ fs : Inputs, Query.check (.str "p") (Entries.ofFields fs) = .ok ⟨"p", fs⟩ →
      Fault.mappingOrEmpty (.obj fs) = .ok (Entries.ofFields fs) → Rule.InRange fs →
      ∃ v o, (g.evaluate .standard (.str "p") (.obj fs)).outcome = .ok v ∧
        lone.meaning fs "p" = some o ∧ v.status = statusOf .standard o ∧
        v.requirements = if o.value.isNone then some o.pending.members else none := by
  obtain ⟨g, hvalid, hg, h⟩ := exists_lone
  exact ⟨g, ⟨lone, hvalid, hg⟩, fun fs => exists_verdict_of_lone hvalid hg h⟩

/-- The lone policy is decided by its comparison while the policy it requires is unknown, and one
more input keeps the decision. -/
theorem PolicyGraph.evaluate_extended_lone : ∃ (g : PolicyGraph) (v w : Verdict),
    g.IsCompiled .standard ∧
    (g.evaluate .standard (.str "p") (.obj [("status", .str "no")])).outcome = .ok v ∧
    (g.evaluate .standard (.str "p")
      (.obj [("age", .int 30), ("status", .str "no")])).outcome = .ok w ∧
    v.status = .notEligible ∧ v.requirements = none ∧
    w.status = v.status ∧ w.confidence = v.confidence ∧ w.requirements = none := by
  obtain ⟨g, hg, hverdict⟩ := exists_verdict_lone
  obtain ⟨v, o, hv, ho, hstatus, hrequirements⟩ := hverdict [("status", .str "no")] rfl rfl
    (by simp [Rule.InRange])
  obtain ⟨w, -, hw, -⟩ := hverdict [("age", .int 30), ("status", .str "no")] rfl rfl
    (by simpa [Rule.InRange] using by decide +kernel)
  have hvalue : o.value = some false := by
    have hmeaning : (lone.meaning [("status", .str "no")] "p").map Outcome.value =
        some (some false) := by decide +kernel
    rw [ho] at hmeaning
    exact Option.some.inj hmeaning
  have hdecided : v.requirements = none := by rw [hrequirements, hvalue]; rfl
  have hextend : Entries.Extend (Entries.ofFields [("age", .int 30), ("status", .str "no")])
      (Entries.ofFields [("status", .str "no")]) := by
    intro x y hx
    rw [Entries.get?_ofFields] at hx ⊢
    by_cases hs : x = "status"
    · subst hs
      exact hx
    · have hs' : (x == "status") = false := by simpa using hs
      simp [List.lookup_cons, hs'] at hx
  refine ⟨g, v, w, hg, hv, hw, by rw [hstatus, statusOf, hvalue], hdecided, ?_⟩
  exact evaluate_extended hg rfl rfl hextend hv hdecided hw

end Witness

end Eligibility
