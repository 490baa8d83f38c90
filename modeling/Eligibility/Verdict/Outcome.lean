import Eligibility.Number
import Eligibility.TextSet
/-!
# Three-valued outcomes

**Values.**  A condition holds, fails, or is undetermined because inputs are
missing.  An outcome carries a confidence and, while it is undetermined, the
inputs that could still decide it.

**Combination.**  A conjunction fails if an operand fails, a disjunction holds if
an operand holds; otherwise an undetermined operand leaves them undetermined.  The
confidence of a conjunction is the smallest and that of a disjunction the largest
of its operands.

**Results.**
* `negate_negate`: negation twice is no change.
* `conjoinValue_eq_false`, `conjoinValue_eq_true`: when a conjunction is decided.
-/

namespace Eligibility

/-- What is known of a condition. -/
structure Outcome where
  value : Option Bool
  confidence : Number
  pending : TextSet := .empty
  deriving DecidableEq

namespace Outcome

/-- The opposite outcome. -/
def negate (o : Outcome) : Outcome := { o with value := o.value.map not }

/-- The opposite outcome where a negation asks for it. -/
def negateIf (negated : Bool) (o : Outcome) : Outcome := if negated then o.negate else o

/-- The inputs that the undetermined ones of several outcomes wait for. -/
def pendingOf (os : List Outcome) : TextSet :=
  ((os.filter fun o => o.value.isNone).map Outcome.pending).foldr TextSet.union .empty

/-- The truth value of a conjunction. -/
def conjoinValue (vs : List (Option Bool)) : Option Bool :=
  if vs.any (· == some false) then some false
  else if vs.any Option.isNone then none
  else some true

/-- The truth value of a disjunction. -/
def disjoinValue (vs : List (Option Bool)) : Option Bool :=
  if vs.any (· == some true) then some true
  else if vs.any Option.isNone then none
  else some false

/-- An outcome that waits for inputs only while it is undetermined. -/
def settle (value : Option Bool) (confidence : Number) (os : List Outcome) : Outcome :=
  ⟨value, confidence, if value.isNone then pendingOf os else .empty⟩

/-- The conjunction of one or more outcomes. -/
def conjoin (o : Outcome) (os : List Outcome) : Outcome :=
  settle (conjoinValue ((o :: os).map value))
    (os.foldl (fun acc p => acc.min p.confidence) o.confidence) (o :: os)

/-- The disjunction of one or more outcomes. -/
def disjoin (o : Outcome) (os : List Outcome) : Outcome :=
  settle (disjoinValue ((o :: os).map value))
    (os.foldl (fun acc p => acc.max p.confidence) o.confidence) (o :: os)

section Laws

theorem negate_negate (o : Outcome) : o.negate.negate = o := by
  cases o with
  | mk v c p => cases v <;> simp [negate]

theorem conjoinValue_eq_false {vs : List (Option Bool)} :
    conjoinValue vs = some false ↔ some false ∈ vs := by
  unfold conjoinValue
  by_cases h : vs.any (· == some false) = true
  · simp [h]; simpa using h
  · have : some false ∉ vs := by simpa using h
    simp only [h]
    by_cases h' : vs.any Option.isNone = true <;> simp [h', this]

theorem conjoinValue_eq_true {vs : List (Option Bool)} :
    conjoinValue vs = some true ↔ ∀ v ∈ vs, v = some true := by
  induction vs with
  | nil => simp [conjoinValue]
  | cons v r ih =>
      unfold conjoinValue at ih ⊢
      rcases v with _ | b
      · by_cases h : r.any (· == some false) = true <;> simp [h]
      · cases b
        · simp
        · simpa using ih

end Laws

end Outcome
end Eligibility
