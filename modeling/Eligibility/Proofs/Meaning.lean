import Mathlib.Data.List.Basic
import Eligibility.Constraint
import Eligibility.Verdict.Outcome
import Eligibility.Proofs.Acceptance
/-!
# The meaning of rule sets

**Values.**  Rules are read in Kleene's three-valued logic, by its tables.  An outcome
has a truth value, a confidence, and, while it is undetermined, the inputs that
its undetermined operands wait for.

**Rules.**  A comparison is undetermined while its variable is not among the inputs,
fails on a value of another kind, and is decided by the value otherwise.  The meaning
of a tree is by recursion on the tree.

**Policies.**  A policy is the conjunction of the rules that belong to it and of the
policies it requires; one that no document declares is undetermined.  No graph is
looked at.

**Results.**
* `conjoin_eq`, `disjoin_eq`: combination in one pass is by Kleene's tables.
* `conjunction_singleton`: a conjunction of one settled outcome is that outcome.
* `isSettled_of_meaning`: the meaning of a sound rule is settled.
-/

namespace Eligibility

namespace Kleene

/-- Kleene's conjunction. -/
def and : Option Bool → Option Bool → Option Bool
  | some false, _ => some false
  | _, some false => some false
  | some true, some true => some true
  | _, _ => none

/-- Kleene's disjunction. -/
def or : Option Bool → Option Bool → Option Bool
  | some true, _ => some true
  | _, some true => some true
  | some false, some false => some false
  | _, _ => none

/-- Kleene's negation. -/
def not : Option Bool → Option Bool
  | some true => some false
  | some false => some true
  | none => none

theorem conjoinValue_eq (vs : List (Option Bool)) :
    Outcome.conjoinValue vs = vs.foldr and (some true) := by
  induction vs with
  | nil => rfl
  | cons v r ih =>
      rw [List.foldr_cons, ← ih]
      unfold Outcome.conjoinValue
      rcases v with _ | _ | _
      · by_cases hf : r.any (· == some false) = true
        · simp [hf, and]
        · by_cases hn : r.any Option.isNone = true <;> simp [hf, hn, and]
      · simp [and]
      · by_cases hf : r.any (· == some false) = true
        · simp [hf, and]
        · by_cases hn : r.any Option.isNone = true <;> simp [hf, hn, and]

theorem disjoinValue_eq (vs : List (Option Bool)) :
    Outcome.disjoinValue vs = vs.foldr or (some false) := by
  induction vs with
  | nil => rfl
  | cons v r ih =>
      rw [List.foldr_cons, ← ih]
      unfold Outcome.disjoinValue
      rcases v with _ | _ | _
      · by_cases ht : r.any (· == some true) = true
        · simp [ht, or]
        · by_cases hn : r.any Option.isNone = true <;> simp [ht, hn, or]
      · by_cases ht : r.any (· == some true) = true
        · simp [ht, or]
        · by_cases hn : r.any Option.isNone = true <;> simp [ht, hn, or]
      · simp [or]

end Kleene

namespace Number

/-- The smallest of several confidences, one if there are none. -/
def least : List Number → Number
  | [] => one
  | x :: r => r.foldl min x

/-- The largest of several confidences, zero if there are none. -/
def greatest : List Number → Number
  | [] => zero
  | x :: r => r.foldl max x

theorem min_eq (x y : Number) : x.min y = x ∨ x.min y = y := by
  unfold min
  split <;> simp

theorem max_eq (x y : Number) : x.max y = x ∨ x.max y = y := by
  unfold max
  split <;> simp

theorem foldl_mem {f : Number → Number → Number} (hf : ∀ x y, f x y = x ∨ f x y = y)
    (xs : List Number) (x : Number) : xs.foldl f x ∈ x :: xs := by
  induction xs generalizing x with
  | nil => simp
  | cons y r ih =>
      rw [List.foldl_cons]
      rcases List.mem_cons.mp (ih (f x y)) with h | h
      · rw [h]
        rcases hf x y with e | e <;> simp [e]
      · simp [h]

end Number

namespace Outcome

/-- The inputs that the undetermined ones of several outcomes wait for. -/
def awaited (os : List Outcome) : TextSet :=
  .ofList ((os.filter fun o => o.value.isNone).flatMap fun o => o.pending.members)

/-- The conjunction of outcomes. -/
def conjunction (os : List Outcome) : Outcome :=
  let v := (os.map value).foldr Kleene.and (some true)
  ⟨v, Number.least (os.map confidence), if v.isNone then awaited os else .empty⟩

/-- The disjunction of outcomes. -/
def disjunction (os : List Outcome) : Outcome :=
  let v := (os.map value).foldr Kleene.or (some false)
  ⟨v, Number.greatest (os.map confidence), if v.isNone then awaited os else .empty⟩

/-- The negation of an outcome. -/
def negation (o : Outcome) : Outcome := ⟨Kleene.not o.value, o.confidence, o.pending⟩

/-- An outcome with a confidence that waits for inputs only while it is undetermined. -/
structure IsSettled (o : Outcome) : Prop where
  confidence : Head.isConfidence o.confidence = true
  pending : o.value ≠ none → o.pending = .empty

section Combination

theorem pendingOf_eq (os : List Outcome) : pendingOf os = awaited os := by
  refine TextSet.ext_members fun x => ?_
  have hmem : ∀ ss : List TextSet, x ∈ ss.foldr TextSet.union .empty ↔ ∃ s ∈ ss, x ∈ s := by
    intro ss
    induction ss with
    | nil => simp
    | cons s r ih => simp [ih]
  rw [awaited, TextSet.mem_ofList, pendingOf, hmem]
  simp [TextSet.mem_def]

/-- Conjunction in one pass is conjunction by Kleene's table. -/
theorem conjoin_eq (o : Outcome) (os : List Outcome) : conjoin o os = conjunction (o :: os) := by
  simp only [conjoin, settle, conjunction, Kleene.conjoinValue_eq, pendingOf_eq, Number.least,
    List.map_cons, List.foldl_map]

/-- Disjunction in one pass is disjunction by Kleene's table. -/
theorem disjoin_eq (o : Outcome) (os : List Outcome) : disjoin o os = disjunction (o :: os) := by
  simp only [disjoin, settle, disjunction, Kleene.disjoinValue_eq, pendingOf_eq, Number.greatest,
    List.map_cons, List.foldl_map]

theorem negate_eq (o : Outcome) : o.negate = o.negation := by
  obtain ⟨v, c, s⟩ := o
  rcases v with _ | _ | _ <;> rfl

/-- The conjunction of a single settled outcome is that outcome. -/
theorem conjunction_singleton {o : Outcome} (ho : o.IsSettled) : conjunction [o] = o := by
  obtain ⟨v, c, s⟩ := o
  have hs := ho.pending
  rcases v with _ | _ | _
  · have hs : awaited [⟨none, c, s⟩] = s := TextSet.ext_members fun x => by
      rw [awaited, TextSet.mem_ofList]
      simp [TextSet.mem_def]
    simp [conjunction, Kleene.and, Number.least, hs]
  · simp_all [conjunction, Kleene.and, Number.least]
  · simp_all [conjunction, Kleene.and, Number.least]

theorem isSettled_negation {o : Outcome} (ho : o.IsSettled) : o.negation.IsSettled := by
  refine ⟨ho.confidence, fun hv => ho.pending fun hn => hv ?_⟩
  simp [negation, hn, Kleene.not]

theorem isConfidence_one : Head.isConfidence Number.one = true := by decide +kernel

theorem isConfidence_least {xs : List Number} (h : ∀ x ∈ xs, Head.isConfidence x = true) :
    Head.isConfidence (Number.least xs) = true := by
  cases xs with
  | nil => exact isConfidence_one
  | cons x r => exact h _ (Number.foldl_mem Number.min_eq r x)

theorem isConfidence_greatest {xs : List Number} (h : ∀ x ∈ xs, Head.isConfidence x = true) :
    Head.isConfidence (Number.greatest xs) = true := by
  cases xs with
  | nil => decide
  | cons x r => exact h _ (Number.foldl_mem Number.max_eq r x)

theorem isSettled_conjunction {os : List Outcome} (h : ∀ o ∈ os, o.IsSettled) :
    (conjunction os).IsSettled := by
  refine ⟨isConfidence_least ?_, fun hv => ?_⟩
  · intro x hx
    obtain ⟨o, ho, rfl⟩ := List.mem_map.mp hx
    exact (h o ho).confidence
  · rw [conjunction, if_neg (by simpa [conjunction] using hv)]

theorem isSettled_disjunction {os : List Outcome} (h : ∀ o ∈ os, o.IsSettled) :
    (disjunction os).IsSettled := by
  refine ⟨isConfidence_greatest ?_, fun hv => ?_⟩
  · intro x hx
    obtain ⟨o, ho, rfl⟩ := List.mem_map.mp hx
    exact (h o ho).confidence
  · rw [disjunction, if_neg (by simpa [disjunction] using hv)]

end Combination

end Outcome

section Rules

/-- The meaning of a comparison, none where the value given for its variable is no number that
it can be compared with. -/
def Head.meaning (inputs : List (String × Json)) (h : Head) : Option Outcome :=
  match h.value, h.confidence with
  | some v, some x =>
      match inputs.lookup h.subject with
      | none => some ⟨none, x, .singleton h.subject⟩
      | some given =>
          match (Constraint.mk h.subject h.operator v).satisfiedBy given with
          | .answer holds => some ⟨some holds, x, .empty⟩
          | .mismatch _ => some ⟨some false, x, .empty⟩
          | _ => none
  | _, _ => none

/-- The meaning of a combination of rules. -/
def Operator.meaning : Operator → List Outcome → Option Outcome
  | .and, os => some (.conjunction os)
  | .or, os => some (.disjunction os)
  | .not, [o] => some o.negation
  | _, _ => none

namespace Rule

mutual

/-- The meaning of a rule against inputs. -/
def meaning (inputs : List (String × Json)) : Rule → Option Outcome
  | node h cs =>
      if h.operator.isLogical then (meanings inputs cs).bind h.operator.meaning
      else h.meaning inputs

/-- The meanings of several rules. -/
def meanings (inputs : List (String × Json)) : List Rule → Option (List Outcome)
  | [] => some []
  | r :: rs => (meaning inputs r).bind fun o => (meanings inputs rs).map (o :: ·)

end

theorem meanings_eq_mapM (inputs : List (String × Json)) (rs : List Rule) :
    meanings inputs rs = rs.mapM (meaning inputs) := by
  induction rs with
  | nil => rfl
  | cons r rs ih =>
      rw [meanings, ih, List.mapM_cons]
      cases meaning inputs r with
      | none => rfl
      | some o => cases rs.mapM (meaning inputs) <;> rfl

theorem meaning_of_comparison {inputs : List (String × Json)} {h : Head}
    (hl : h.operator.isLogical = false) (cs : List Rule) :
    (node h cs).meaning inputs = h.meaning inputs := by
  rw [meaning, if_neg (by simp [hl])]

/-- The meaning of a sound comparison is settled. -/
theorem isSettled_of_comparison {inputs : List (String × Json)} {h : Head} {n : Nat}
    (hs : h.IsSound n) {o : Outcome} (ho : h.meaning inputs = some o) : o.IsSettled := by
  obtain ⟨x, hx, hconf⟩ := hs.confidence
  simp only [Head.meaning, hx] at ho
  split at ho
  · next v y hv hy =>
    cases hy
    split at ho
    · cases ho
      exact ⟨hconf, fun h => absurd rfl h⟩
    · split at ho
      · cases ho; exact ⟨hconf, fun _ => rfl⟩
      · cases ho; exact ⟨hconf, fun _ => rfl⟩
      · cases ho
  · cases ho

theorem isSettled_of_combination {op : Operator} {os : List Outcome}
    (hs : ∀ o ∈ os, o.IsSettled) {o : Outcome} (ho : op.meaning os = some o) : o.IsSettled := by
  unfold Operator.meaning at ho
  split at ho
  · cases ho; exact Outcome.isSettled_conjunction hs
  · cases ho; exact Outcome.isSettled_disjunction hs
  · cases ho; exact Outcome.isSettled_negation (hs _ (by simp))
  · cases ho

mutual

/-- The meaning of a sound rule is settled. -/
theorem isSettled_of_meaning {inputs : List (String × Json)} {o : Outcome} : ∀ r : Rule,
    (∀ t ∈ r.walk, t.head.IsSound t.children.length) → r.meaning inputs = some o → o.IsSettled
  | node h cs, hs, ho => by
      have hhead := hs (node h cs) (mem_walk_self _)
      rw [meaning] at ho
      split at ho
      · obtain ⟨os, hos, ho⟩ := Option.bind_eq_some_iff.mp ho
        have hbelow : ∀ t ∈ walkAll cs, t.head.IsSound t.children.length :=
          fun t ht => hs t (by simp [walk, ht])
        exact isSettled_of_combination (isSettled_of_meanings cs hbelow hos) ho
      · exact isSettled_of_comparison hhead ho

theorem isSettled_of_meanings {inputs : List (String × Json)} {os : List Outcome} :
    ∀ rs : List Rule, (∀ t ∈ walkAll rs, t.head.IsSound t.children.length) →
      meanings inputs rs = some os → ∀ o ∈ os, o.IsSettled
  | [], _, ho => by cases ho; simp
  | r :: rs, hs, ho => by
      obtain ⟨o, hr, ho⟩ := Option.bind_eq_some_iff.mp ho
      obtain ⟨os', hrs, rfl⟩ := Option.map_eq_some_iff.mp ho
      have hfirst := isSettled_of_meaning r (fun t ht => hs t (by simp [walkAll, ht])) hr
      have hrest := isSettled_of_meanings rs (fun t ht => hs t (by simp [walkAll, ht])) hrs
      intro x hx
      rcases List.mem_cons.mp hx with rfl | hx
      · exact hfirst
      · exact hrest x hx

end

section Existence

/-- Inputs whose integers have a value in double precision. -/
def InRange (inputs : List (String × Json)) : Prop :=
  ∀ x ∈ inputs, ∀ n, x.2 = .int n → (Number.ofInt? n).isSome = true

/-- An operator that fits a number and is not inequality has an interval. -/
theorem exists_intervalOf {o : Operator} (hl : o.isLogical = false)
    (hfit : Head.fits o .numeric = true) (hne : o ≠ .neq) (x : Number) :
    ∃ i, Constraint.intervalOf o x = some i := by
  cases o <;> simp_all [Constraint.intervalOf, Operator.isLogical, Head.fits,
    Operator.isOrdering, Operator.isMembership]

/-- A value in range is decided by a fitting comparison, or is of another kind. -/
theorem satisfiedBy_cases {c : Constraint} (hl : c.operator.isLogical = false)
    (hfit : Head.fits c.operator c.value.kind = true) {given : Json}
    (hgiven : ∀ n, given = .int n → (Number.ofInt? n).isSome = true) :
    (∃ holds, c.satisfiedBy given = .answer holds) ∨ ∃ m, c.satisfiedBy given = .mismatch m := by
  obtain ⟨subject, o, v⟩ := c
  cases v with
  | number x =>
      by_cases hne : o = .neq
      · subst hne
        cases given <;>
          simp [Constraint.satisfiedBy, Constraint.checkNumeric, Constraint.checkInt,
            Constraint.checkNumber]
      · obtain ⟨i, hi⟩ := exists_intervalOf hl hfit hne x
        cases given with
        | int n =>
            obtain ⟨y, hy⟩ := Option.isSome_iff_exists.mp (hgiven n rfl)
            simp [Constraint.satisfiedBy, Constraint.checkNumeric, Constraint.checkInt, hne, hi, hy]
        | float y =>
            simp [Constraint.satisfiedBy, Constraint.checkNumeric, Constraint.checkNumber, hne, hi]
        | _ => simp [Constraint.satisfiedBy, Constraint.checkNumeric]
  | flag b => cases given <;> simp [Constraint.satisfiedBy, Constraint.checkFlag]
  | text s =>
      cases given with
      | arr xs =>
          cases h : Constraint.textsOf? xs <;>
            simp [Constraint.satisfiedBy, Constraint.checkText, h]
      | _ => simp [Constraint.satisfiedBy, Constraint.checkText]
  | texts ss =>
      cases given with
      | arr xs =>
          cases h : Constraint.textsOf? xs <;>
            simp [Constraint.satisfiedBy, Constraint.checkText, h]
      | _ => simp [Constraint.satisfiedBy, Constraint.checkText]

/-- A sound comparison has a meaning for inputs in range. -/
theorem exists_meaning_of_comparison {inputs : List (String × Json)} (hin : InRange inputs)
    {h : Head} {n : Nat} (hs : h.IsSound n) (hl : h.operator.isLogical = false) :
    ∃ o, h.meaning inputs = some o := by
  obtain ⟨-, v, hv, hfit, -⟩ := hs.comparison hl
  obtain ⟨x, hx, -⟩ := hs.confidence
  simp only [Head.meaning, hv, hx]
  cases hlook : inputs.lookup h.subject with
  | none => exact ⟨_, rfl⟩
  | some given =>
      have hgiven : ∀ n, given = .int n → (Number.ofInt? n).isSome = true :=
        hin (h.subject, given) (mem_of_lookup hlook)
      rcases satisfiedBy_cases (c := ⟨h.subject, h.operator, v⟩) hl hfit hgiven with
        ⟨holds, he⟩ | ⟨m, he⟩
      · exact ⟨⟨some holds, x, .empty⟩, by simp only [he]⟩
      · exact ⟨⟨some false, x, .empty⟩, by simp only [he]⟩

theorem exists_meaning_of_combination {op : Operator} (hl : op.isLogical = true) (os : List Outcome)
    (hnot : op = .not → os.length = 1) : ∃ o, op.meaning os = some o := by
  cases op <;> try cases hl
  · exact ⟨_, rfl⟩
  · exact ⟨_, rfl⟩
  · obtain ⟨o, rfl⟩ := List.length_eq_one_iff.mp (hnot rfl)
    exact ⟨_, rfl⟩

mutual

/-- A sound rule has a meaning for inputs in range. -/
theorem exists_meaning {inputs : List (String × Json)} (hin : InRange inputs) : ∀ r : Rule,
    (∀ t ∈ r.walk, t.head.IsSound t.children.length) → ∃ o, r.meaning inputs = some o
  | node h cs, hs => by
      have hhead := hs (node h cs) (mem_walk_self _)
      rw [meaning]
      split
      · next hl =>
        obtain ⟨os, hos, hlength⟩ := exists_meanings hin cs (fun t ht => hs t (by simp [walk, ht]))
        obtain ⟨o, ho⟩ := exists_meaning_of_combination hl os fun hnot => by
          rw [hlength]
          exact (hhead.logical hl).2.2 hnot
        exact ⟨o, by rw [hos, Option.bind_some, ho]⟩
      · next hl => exact exists_meaning_of_comparison hin hhead (by simpa using hl)

theorem exists_meanings {inputs : List (String × Json)} (hin : InRange inputs) :
    ∀ rs : List Rule, (∀ t ∈ walkAll rs, t.head.IsSound t.children.length) →
      ∃ os, meanings inputs rs = some os ∧ os.length = rs.length
  | [], _ => ⟨[], rfl, rfl⟩
  | r :: rs, hs => by
      obtain ⟨o, ho⟩ := exists_meaning hin r (fun t ht => hs t (by simp [walkAll, ht]))
      obtain ⟨os, hos, hlength⟩ :=
        exists_meanings hin rs (fun t ht => hs t (by simp [walkAll, ht]))
      exact ⟨o :: os, by rw [meanings, ho, hos]; rfl, by simp [hlength]⟩

end

end Existence

end Rule

end Rules

namespace RuleSet

section Policies

/-- The policies that a rule set declares: its documents, or its top-level rules. -/
def policies (s : RuleSet) : List String :=
  if s.documents.isEmpty then s.rules.map Rule.id else s.documents.map Document.policy

/-- Whether a top-level rule belongs to a policy: to the document that holds its clause, or to
itself. -/
def assigns (s : RuleSet) (policy : String) (r : Rule) : Bool :=
  if s.documents.isEmpty then r.id = policy
  else
    s.documents.any fun d => d.policy = policy && (d.clauses.map Clause.id).contains r.head.clause

/-- The policies that a policy requires, each once, as its document declares them. -/
def requirements (s : RuleSet) (policy : String) : List String :=
  ((s.documents.find? fun d => d.policy = policy).map fun d => d.prerequisites.eraseDups).getD []

/-- What is known of a policy that is not declared. -/
def unknownPolicy (policy : String) : Outcome :=
  ⟨none, Number.one, .singleton ("policy:" ++ policy)⟩

/-- The meaning of a policy against inputs, over at most so many policies that require each
other. -/
def policyMeaning (s : RuleSet) (inputs : List (String × Json)) : Nat → String → Option Outcome
  | 0, _ => none
  | depth + 1, policy => do
      let own ← Rule.meanings inputs (s.rules.filter (s.assigns policy))
      let required ← (s.requirements policy).mapM fun t =>
        if t ∈ s.policies then s.policyMeaning inputs depth t else some (unknownPolicy t)
      return .conjunction (own ++ required)

/-- The meaning of a policy against inputs; none where policies require each other in a circle, or
a comparison has no meaning. -/
def meaning (s : RuleSet) (inputs : List (String × Json)) (policy : String) : Option Outcome :=
  s.policyMeaning inputs s.policies.length policy

end Policies

end RuleSet
end Eligibility
