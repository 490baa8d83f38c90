import Mathlib.Data.Fintype.EquivFin
import Eligibility.Proofs.Intervals
import Eligibility.Proofs.Literals
/-!
# The ordinary sense of comparisons

**Values.**  A variable takes rational numbers, truth values or texts.  A value
meets a comparison in the ordinary sense of its operator, the operand being read
as the rational, the truth value, the text or the set of texts that it is.

**Results.**
* `satisfiedBy_iff`: a given value is checked in the ordinary sense.
* `jointly_iff`: two constraints on one variable are jointly satisfiable where some value meets
  both in the ordinary sense.
* `jointly_comm`: the answer does not depend on the order of the two.
* `exists_list_of_jointly`: what is given is accepted by two constraints that no value meets only
  where it is a list.
-/

namespace Eligibility

/-- A value of a variable. -/
inductive Scalar where
  | number (q : Rat)
  | flag (b : Bool)
  | text (s : String)

namespace Operator

/-- The sense of a comparison of numbers. -/
def Compares : Operator → Rat → Rat → Prop
  | eq, q, p => q = p
  | neq, q, p => q ≠ p
  | lt, q, p => q < p
  | lte, q, p => q ≤ p
  | gt, q, p => p < q
  | gte, q, p => p ≤ q
  | _, _, _ => False

/-- The sense of a comparison of truth values or of texts. -/
def Agrees {α : Type} : Operator → α → α → Prop
  | eq, a, b => a = b
  | neq, a, b => a ≠ b
  | _, _, _ => False

/-- The sense of a comparison with a set of texts. -/
def Ranges : Operator → String → TextSet → Prop
  | isIn, s, ts => s ∈ ts
  | notIn, s, ts => s ∉ ts
  | _, _, _ => False

end Operator

namespace Constraint

/-- Whether a value meets a constraint in the ordinary sense. -/
def Meets (c : Constraint) (v : Scalar) : Prop :=
  match c.value, v with
  | .number x, .number q => ∃ p, x.value? = some p ∧ c.operator.Compares q p
  | .flag f, .flag b => c.operator.Agrees b f
  | .text t, .text s => c.operator.Agrees s t
  | .texts ts, .text s => c.operator.Ranges s ts
  | _, _ => False

section Numbers

variable {o p : Operator} {x y : Number} {a b q : Rat} {i j : Interval}

/-- The interval of a comparison with a rational. -/
theorem isProper_of_intervalOf (hx : x.value? = some a) (hi : intervalOf o x = some i) :
    i.IsProper := by
  have hn := Number.isNaN_of_value? hx
  have hp := Number.place_of_value? hx
  cases o <;> cases hi <;> constructor <;> simp [Interval.point, hn, hp]

theorem mem_intervalOf (hx : x.value? = some a) (hi : intervalOf o x = some i) :
    i.Mem q ↔ o.Compares q a := by
  have hp := Number.place_of_value? hx
  cases o <;> cases hi <;>
    simp [Interval.Mem, Interval.Above, Interval.Below, Interval.point, Operator.Compares, hp,
      Number.coe_lt_top, ← le_iff_lt_or_eq]
  exact and_comm.trans le_antisymm_iff.symm

theorem overlaps_iff (hx : x.value? = some a) (hy : y.value? = some b)
    (hi : intervalOf o x = some i) (hj : intervalOf p y = some j) :
    i.overlaps j = true ↔ ∃ q, o.Compares q a ∧ p.Compares q b := by
  rw [Interval.overlaps_iff (isProper_of_intervalOf hx hi) (isProper_of_intervalOf hy hj)]
  exact exists_congr fun q => by rw [mem_intervalOf hx hi, mem_intervalOf hy hj]

theorem containsPoint_iff (hx : x.value? = some a) (hy : y.value? = some q)
    (hi : intervalOf o x = some i) : i.containsPoint y = true ↔ o.Compares q a :=
  ((isProper_of_intervalOf hx hi).containsPoint_iff hy).trans (mem_intervalOf hx hi)

/-- Equality apart, a comparison leaves room beside any hole. -/
theorem hole_iff (hx : x.value? = some a) (hy : y.value? = some b)
    (hi : intervalOf o x = some i) :
    (!(i.isPoint && i.low.same y)) = true ↔ ∃ q, o.Compares q a ∧ q ≠ b := by
  have hxn := Number.isNaN_of_value? hx
  have hbelow : min a b - 1 < a ∧ min a b - 1 ≠ b := by grind
  have habove : a < max a b + 1 ∧ max a b + 1 ≠ b := by grind
  cases o with
  | eq =>
      cases hi
      have hpoint : (Interval.point x).isPoint = true := by
        simp [Interval.isPoint, Interval.point, Number.same_iff hxn hxn]
      rw [hpoint, Bool.true_and, Interval.point, Number.same_of_value? hx hy]
      simp [Operator.Compares]
  | lt =>
      cases hi
      simp only [Interval.isPoint, Bool.and_false, Bool.false_and, Bool.not_false, true_iff]
      exact ⟨_, hbelow⟩
  | lte =>
      cases hi
      simp only [Interval.isPoint, Bool.and_false, Bool.false_and, Bool.not_false, true_iff]
      exact ⟨_, hbelow.1.le, hbelow.2⟩
  | gt =>
      cases hi
      simp only [Interval.isPoint, Bool.and_false, Bool.false_and, Bool.not_false, true_iff]
      exact ⟨_, habove⟩
  | gte =>
      cases hi
      simp only [Interval.isPoint, Bool.and_false, Bool.false_and, Bool.not_false, true_iff]
      exact ⟨_, habove.1.le, habove.2⟩
  | _ => cases hi

theorem numbersJointly_iff (hx : x.value? = some a) (hy : y.value? = some b)
    {r : Bool} (h : numbersJointly o x p y = some r) :
    r = true ↔ ∃ q, o.Compares q a ∧ p.Compares q b := by
  unfold numbersJointly at h
  split_ifs at h with hboth ho hp
  · obtain ⟨rfl, rfl⟩ := hboth
    cases h
    have hroom : max a b + 1 ≠ a ∧ max a b + 1 ≠ b := by grind
    exact ⟨fun _ => ⟨_, hroom⟩, fun _ => rfl⟩
  · obtain ⟨i, hi, rfl⟩ := Option.map_eq_some_iff.mp h
    subst ho
    rw [hole_iff hy hx hi]
    exact exists_congr fun _ => and_comm
  · obtain ⟨i, hi, rfl⟩ := Option.map_eq_some_iff.mp h
    subst hp
    exact hole_iff hx hy hi
  · cases hi : intervalOf o x with
    | none => simp [hi] at h
    | some i =>
        cases hj : intervalOf p y with
        | none => simp [hi, hj] at h
        | some j =>
            rw [hi, hj] at h
            cases h
            exact overlaps_iff hx hy hi hj

end Numbers

end Constraint

namespace Scalar

/-- The domain of a value. -/
def kind : Scalar → ValueKind
  | number _ => .numeric
  | flag _ => .boolean
  | text _ => .string

end Scalar

/-- The value that is given, if it is one that a variable takes; an integer is given exactly where a
double equals it. -/
def Json.scalar? : Json → Option Scalar
  | .bool b => some (.flag b)
  | .int n =>
      (Number.ofInt? n).bind fun x => if x.sameInt n then some (.number n) else none
  | .float x => x.value?.map .number
  | .str s => some (.text s)
  | _ => none

theorem Json.eq_of_scalar?_flag {given : Json} {b : Bool} (h : given.scalar? = some (.flag b)) :
    given = .bool b := by
  cases given with
  | bool => cases h; rfl
  | int n => simp [scalar?, Option.bind_eq_some_iff] at h
  | float x => simp [scalar?] at h
  | _ => cases h

theorem Json.eq_of_scalar?_text {given : Json} {s : String} (h : given.scalar? = some (.text s)) :
    given = .str s := by
  cases given with
  | str => cases h; rfl
  | int n => simp [scalar?, Option.bind_eq_some_iff] at h
  | float x => simp [scalar?] at h
  | _ => cases h

namespace Constraint

section Fitting

variable {s : String} {o : Operator}

theorem IsFitting.operator_flag {b : Bool} (h : IsFitting ⟨s, o, .flag b⟩) :
    o = .eq ∨ o = .neq := by
  obtain ⟨ho, hf⟩ := h
  cases o <;> simp_all [Operator.isLogical, Head.fits, Operator.isOrdering, Operator.isMembership,
    Operand.kind]

theorem IsFitting.operator_text {t : String} (h : IsFitting ⟨s, o, .text t⟩) :
    o = .eq ∨ o = .neq := by
  obtain ⟨ho, hf⟩ := h
  cases o <;> simp_all [Operator.isLogical, Head.fits, Operator.isOrdering, Operator.isMembership,
    Operand.kind]

theorem IsFitting.operator_texts {ts : TextSet} (h : IsFitting ⟨s, o, .texts ts⟩) :
    o = .isIn ∨ o = .notIn := by
  obtain ⟨ho, hf⟩ := h
  cases o <;> simp_all [Operator.isLogical, Head.fits, Operator.isOrdering, Operator.isMembership,
    Operand.kind]

end Fitting

/-- Whether a fitting constraint compares numbers with a finite one only. -/
structure IsOrdinary (c : Constraint) : Prop extends c.IsFitting where
  finite : ∀ x, c.value = .number x → x.isFinite = true

variable {c d : Constraint} {v : Scalar} {given : Json}

theorem Meets.kind_eq (h : c.Meets v) : v.kind = c.domain := by
  obtain ⟨s, o, w⟩ := c
  cases w with
  | number x => cases v with
    | number q => rfl
    | _ => cases h
  | flag f => cases v with
    | flag b => rfl
    | _ => cases h
  | _ => cases v with
    | text s => rfl
    | _ => cases h

/-- Among the values of the domain, the complement is met by those that do not meet the
constraint. -/
theorem meets_negated (hc : c.IsOrdinary) (hd : c.negated? = some d) (hv : v.kind = c.domain) :
    d.Meets v ↔ ¬ c.Meets v := by
  obtain ⟨s, o, w⟩ := c
  obtain ⟨p, hp, rfl⟩ := Option.map_eq_some_iff.mp hd
  cases w with
  | number x =>
      obtain ⟨a, ha⟩ := Option.isSome_iff_exists.mp (hc.finite x rfl)
      have hcompares : ∀ q, p.Compares q a ↔ ¬ o.Compares q a := by
        have hfits := hc.fits
        intro q
        cases o <;> cases hp <;> simp [Operator.Compares]
        all_goals cases hfits
      cases v <;> cases hv
      simp [Meets, ha, hcompares]
  | flag f =>
      cases v <;> cases hv
      rcases hc.operator_flag with rfl | rfl <;> cases hp <;> simp [Meets, Operator.Agrees]
  | text t =>
      cases v <;> cases hv
      rcases hc.operator_text with rfl | rfl <;> cases hp <;> simp [Meets, Operator.Agrees]
  | texts ts =>
      cases v <;> cases hv
      rcases hc.operator_texts with rfl | rfl <;> cases hp <;> simp [Meets, Operator.Ranges]

theorem exists_checkNumber {o : Operator} (ho : o.isLogical = false)
    (hfits : Head.fits o .numeric = true) (x y : Number) : ∃ b, checkNumber o x y = .answer b := by
  unfold checkNumber
  split_ifs with hne
  · exact ⟨_, rfl⟩
  · obtain ⟨i, hi⟩ := Rule.exists_intervalOf ho hfits hne x
    exact ⟨_, by rw [hi]⟩

theorem checkNumber_iff {o : Operator} {x y : Number} {a q : Rat} (ho : o.isLogical = false)
    (hfits : Head.fits o .numeric = true) (hx : x.value? = some a) (hy : y.value? = some q) :
    checkNumber o x y = .answer true ↔ o.Compares q a := by
  unfold checkNumber
  split_ifs with hne
  · subst hne
    simp [Number.same_of_value? hy hx, Operator.Compares]
  · obtain ⟨i, hi⟩ := Rule.exists_intervalOf ho hfits hne x
    rw [hi, ← containsPoint_iff hx hy hi]
    simp

theorem allowsFlag_iff {s : String} {o : Operator} {f b : Bool} (hc : IsFitting ⟨s, o, .flag f⟩) :
    allowsFlag o f b = true ↔ o.Agrees b f := by
  rcases hc.operator_flag with rfl | rfl <;> simp [allowsFlag, Operator.Agrees]

@[simp] theorem excludes_eq : excludes .eq = false := rfl

@[simp] theorem excludes_neq : excludes .neq = true := rfl

@[simp] theorem excludes_isIn : excludes .isIn = false := rfl

@[simp] theorem excludes_notIn : excludes .notIn = true := rfl

theorem contains_eq_false {ts : TextSet} {s : String} : ts.contains s = false ↔ s ∉ ts := by
  rw [← Bool.not_eq_true, TextSet.contains_iff]

theorem contains_iff {r : TextRange} {s : String} (hc : c.IsFitting)
    (hr : c.textRange? = some r) :
    (r.named.contains s != r.complement) = true ↔ c.Meets (.text s) := by
  obtain ⟨_, o, w⟩ := c
  cases w with
  | text t =>
      cases hr
      rcases hc.operator_text with rfl | rfl <;>
        simp [Meets, Operator.Agrees, contains_eq_false, TextSet.singleton]
  | texts ts =>
      cases hr
      rcases hc.operator_texts with rfl | rfl <;> simp [Meets, Operator.Ranges, contains_eq_false]
  | _ => cases hr

/-- An integer is checked like the double that is nearest to it, inequality apart. -/
theorem checkInt_eq_checkNumber {o : Operator} {x y : Number} {n : Int} (hne : o ≠ .neq)
    (hy : Number.ofInt? n = some y) : checkInt o x n = checkNumber o x y := by
  rw [checkInt, checkNumber, if_neg hne, if_neg hne, hy]
  cases intervalOf o x <;> rfl

/-- An integer that a double equals is checked like this double. -/
theorem checkInt_of_sameInt {o : Operator} {x y : Number} {n : Int} {a : Rat}
    (hx : x.value? = some a) (hy : Number.ofInt? n = some y) (hn : y.value? = some (n : Rat)) :
    checkInt o x n = checkNumber o x y := by
  by_cases hne : o = .neq
  · subst hne
    have hsame : x.sameInt n = y.same x := by
      rw [Number.sameInt, hx, Number.same_of_value? hn hx]
      exact decide_eq_decide.mpr eq_comm
    rw [checkInt, checkNumber, if_pos rfl, if_pos rfl, hsame]
  · exact checkInt_eq_checkNumber hne hy

/-- A number that is given exactly is checked like a double. -/
theorem exists_checkNumeric_eq {q : Rat} (hv : given.scalar? = some (.number q)) :
    ∃ y : Number, y.value? = some q ∧ ∀ o x a, x.value? = some a →
      checkNumeric o x given = checkNumber o x y := by
  cases given with
  | int n =>
      obtain ⟨y, hy, hscalar⟩ := Option.bind_eq_some_iff.mp hv
      have hsame : y.sameInt n = true := by
        by_contra h
        simp [h] at hscalar
      rw [if_pos hsame] at hscalar
      cases hscalar
      have hn : y.value? = some (n : Rat) := by
        cases hvalue : y.value? with
        | none => simp [Number.sameInt, hvalue] at hsame
        | some r =>
            have : r = n := by simpa [Number.sameInt, hvalue] using hsame
            rw [this]
      exact ⟨y, hn, fun o x a hx => checkInt_of_sameInt hx hy hn⟩
  | float y =>
      obtain ⟨r, hr, hscalar⟩ := Option.map_eq_some_iff.mp hv
      cases hscalar
      exact ⟨y, hr, fun _ _ _ _ => rfl⟩
  | _ => cases hv

/-- A given value of the domain is checked with an answer, in the ordinary sense. -/
theorem exists_satisfiedBy (hc : c.IsOrdinary) (hv : given.scalar? = some v)
    (hk : v.kind = c.domain) : ∃ b, c.satisfiedBy given = .answer b ∧ (b = true ↔ c.Meets v) := by
  obtain ⟨s, o, w⟩ := c
  cases w with
  | number x =>
      cases v with
      | number q =>
          obtain ⟨a, ha⟩ := Option.isSome_iff_exists.mp (hc.finite x rfl)
          obtain ⟨y, hy, hcheck⟩ := exists_checkNumeric_eq hv
          obtain ⟨b, hb⟩ := exists_checkNumber hc.comparison hc.fits x y
          refine ⟨b, (hcheck o x a ha).trans hb, ?_⟩
          have hiff := checkNumber_iff hc.comparison hc.fits ha hy
          rw [hb] at hiff
          simpa [Meets, ha] using hiff
      | _ => cases hk
  | flag f =>
      cases v with
      | flag b =>
          cases Json.eq_of_scalar?_flag hv
          exact ⟨_, rfl, allowsFlag_iff hc.toIsFitting⟩
      | _ => cases hk
  | text t =>
      cases v with
      | text u =>
          cases Json.eq_of_scalar?_text hv
          exact ⟨_, rfl, contains_iff hc.toIsFitting rfl⟩
      | _ => cases hk
  | texts ts =>
      cases v with
      | text u =>
          cases Json.eq_of_scalar?_text hv
          exact ⟨_, rfl, contains_iff hc.toIsFitting rfl⟩
      | _ => cases hk

theorem kind_eq_of_satisfiedBy {b : Bool} (hv : given.scalar? = some v)
    (h : c.satisfiedBy given = .answer b) : v.kind = c.domain := by
  obtain ⟨s, o, w⟩ := c
  cases v with
  | number q =>
      cases given <;> cases w <;>
        simp_all [satisfiedBy, checkFlag, checkText, Scalar.kind, domain, Operand.kind,
          ValueKind.domain, Json.scalar?]
  | flag f =>
      cases Json.eq_of_scalar?_flag hv
      cases w with
      | flag => rfl
      | _ => cases h
  | text t =>
      cases Json.eq_of_scalar?_text hv
      cases w with
      | text => rfl
      | texts => rfl
      | _ => cases h

/-- A given value is checked in the ordinary sense. -/
theorem satisfiedBy_iff (hc : c.IsOrdinary) (hv : given.scalar? = some v) :
    c.satisfiedBy given = .answer true ↔ c.Meets v := by
  constructor
  · intro h
    obtain ⟨b, hb, hiff⟩ := exists_satisfiedBy hc hv (kind_eq_of_satisfiedBy hv h)
    exact hiff.mp (Check.answer.inj (hb.symm.trans h))
  · intro h
    obtain ⟨b, hb, hiff⟩ := exists_satisfiedBy hc hv h.kind_eq
    rw [hb, hiff.mpr h]

/-- Outside any finite set there is a text. -/
theorem exists_not_mem (l : List String) : ∃ s, s ∉ l := by
  have : Infinite String := .of_injective (fun n : Nat => String.ofList (.replicate n 'a')) <| by
    intro m n h
    simpa using congrArg String.length h
  obtain ⟨s, hs⟩ := Infinite.exists_notMem_finset l.toFinset
  exact ⟨s, fun h => hs (List.mem_toFinset.mpr h)⟩

theorem TextRange.jointly_iff {r t : TextRange} :
    r.jointly t = true ↔ ∃ s, (r.named.contains s != r.complement) = true ∧
      (t.named.contains s != t.complement) = true := by
  obtain ⟨rs, rc⟩ := r
  obtain ⟨ts, tc⟩ := t
  cases rc <;> cases tc
  · simp [TextRange.jointly, TextSet.meets_iff]
  · simp [TextRange.jointly, ← Bool.not_eq_true, TextSet.subset_iff]
  · simp [TextRange.jointly, ← Bool.not_eq_true, TextSet.subset_iff, and_comm]
  · obtain ⟨s, hs⟩ := exists_not_mem (rs.members ++ ts.members)
    simp only [List.mem_append, not_or] at hs
    simpa [TextRange.jointly, contains_eq_false] using ⟨s, hs⟩

theorem jointly_of_textRange {r t : TextRange} (h : comparable c d = true)
    (hr : c.textRange? = some r) (ht : d.textRange? = some t) :
    c.jointly d = some (r.jointly t) := by
  obtain ⟨_, o, w⟩ := c
  obtain ⟨_, p, u⟩ := d
  rw [jointly, h]
  cases w <;> cases hr <;> cases u <;> cases ht <;> rfl

theorem exists_text_of_meets {r : TextRange} (hr : c.textRange? = some r) (hv : c.Meets v) :
    ∃ s, v = .text s := by
  have hkind : v.kind = .string := by
    rw [hv.kind_eq]
    obtain ⟨_, _, w⟩ := c
    cases w with
    | text => rfl
    | texts => rfl
    | _ => cases hr
  cases v with
  | text s => exact ⟨s, rfl⟩
  | _ => cases hkind

theorem jointly_iff_of_textRange {r t : TextRange} (hc : c.IsFitting) (hd : d.IsFitting)
    (h : comparable c d = true) (hr : c.textRange? = some r) (ht : d.textRange? = some t) :
    c.jointly d = some true ↔ ∃ v, c.Meets v ∧ d.Meets v := by
  rw [jointly_of_textRange h hr ht, Option.some.injEq, TextRange.jointly_iff]
  constructor
  · rintro ⟨s, hs, hs'⟩
    exact ⟨.text s, (contains_iff hc hr).mp hs, (contains_iff hd ht).mp hs'⟩
  · rintro ⟨v, hv, hv'⟩
    obtain ⟨s, rfl⟩ := exists_text_of_meets hr hv
    exact ⟨s, (contains_iff hc hr).mpr hv, (contains_iff hd ht).mpr hv'⟩

section Pairs

variable {s t : String} {o p : Operator}

/-- Two constraints on numbers of one variable are jointly satisfiable where some number meets
both. -/
theorem jointly_number_iff {x y : Number} (hc : IsOrdinary ⟨s, o, .number x⟩)
    (hd : IsOrdinary ⟨t, p, .number y⟩)
    (h : comparable ⟨s, o, .number x⟩ ⟨t, p, .number y⟩ = true) :
    jointly ⟨s, o, .number x⟩ ⟨t, p, .number y⟩ = some true ↔
      ∃ v, Meets ⟨s, o, .number x⟩ v ∧ Meets ⟨t, p, .number y⟩ v := by
  obtain ⟨a, ha⟩ := Option.isSome_iff_exists.mp (hc.finite x rfl)
  obtain ⟨b, hb⟩ := Option.isSome_iff_exists.mp (hd.finite y rfl)
  obtain ⟨r, hr⟩ : ∃ r, numbersJointly o x p y = some r :=
    exists_numbersJointly hc.comparison hc.fits hd.comparison hd.fits
  have hjointly : jointly ⟨s, o, .number x⟩ ⟨t, p, .number y⟩ = some r := by
    rw [jointly, h]
    exact hr
  rw [hjointly, Option.some.injEq, numbersJointly_iff ha hb hr]
  constructor
  · rintro ⟨q, hq, hq'⟩
    exact ⟨.number q, ⟨a, ha, hq⟩, ⟨b, hb, hq'⟩⟩
  · rintro ⟨v, hv, hv'⟩
    cases v with
    | number q =>
        simp only [Meets, ha, hb, Option.some.injEq, exists_eq_left'] at hv hv'
        exact ⟨q, hv, hv'⟩
    | _ => cases hv

theorem jointly_flag_iff {f g : Bool} (hc : IsFitting ⟨s, o, .flag f⟩)
    (hd : IsFitting ⟨t, p, .flag g⟩) (h : comparable ⟨s, o, .flag f⟩ ⟨t, p, .flag g⟩ = true) :
    jointly ⟨s, o, .flag f⟩ ⟨t, p, .flag g⟩ = some true ↔
      ∃ v, Meets ⟨s, o, .flag f⟩ v ∧ Meets ⟨t, p, .flag g⟩ v := by
  have hjointly : jointly ⟨s, o, .flag f⟩ ⟨t, p, .flag g⟩ = some (flagsJointly o f p g) := by
    rw [jointly, h]
    rfl
  have hany : flagsJointly o f p g = true ↔ ∃ b, o.Agrees b f ∧ p.Agrees b g := by
    rw [flagsJointly, List.any_eq_true]
    exact exists_congr fun b => by
      rw [Bool.and_eq_true, allowsFlag_iff hc, allowsFlag_iff hd]
      cases b <;> simp
  rw [hjointly, Option.some.injEq, hany]
  constructor
  · rintro ⟨b, hb⟩
    exact ⟨.flag b, hb⟩
  · rintro ⟨v, hv⟩
    cases v with
    | flag b => exact ⟨b, hv⟩
    | _ => cases hv.1

end Pairs

/-- Two constraints on one variable are jointly satisfiable where some value meets both. -/
theorem jointly_iff (hc : c.IsOrdinary) (hd : d.IsOrdinary) (hsubject : c.subject = d.subject)
    (hdomain : c.domain = d.domain) :
    c.jointly d = some true ↔ ∃ v, c.Meets v ∧ d.Meets v := by
  have h : comparable c d = true := by simp [comparable, hsubject, hdomain]
  obtain ⟨s, o, w⟩ := c
  obtain ⟨t, p, u⟩ := d
  cases w with
  | number x =>
      cases u with
      | number y => exact jointly_number_iff hc hd h
      | _ => cases hdomain
  | flag f =>
      cases u with
      | flag g => exact jointly_flag_iff hc.toIsFitting hd.toIsFitting h
      | _ => cases hdomain
  | text x =>
      cases u with
      | text y => exact jointly_iff_of_textRange hc.toIsFitting hd.toIsFitting h rfl rfl
      | texts ys => exact jointly_iff_of_textRange hc.toIsFitting hd.toIsFitting h rfl rfl
      | _ => cases hdomain
  | texts xs =>
      cases u with
      | text y => exact jointly_iff_of_textRange hc.toIsFitting hd.toIsFitting h rfl rfl
      | texts ys => exact jointly_iff_of_textRange hc.toIsFitting hd.toIsFitting h rfl rfl
      | _ => cases hdomain

/-- Whether two constraints are jointly satisfiable does not depend on their order. -/
theorem jointly_comm (hc : c.IsOrdinary) (hd : d.IsOrdinary) : c.jointly d = d.jointly c := by
  by_cases hcomparable : c.subject = d.subject ∧ c.domain = d.domain
  · obtain ⟨r, hr⟩ := exists_jointly hc.toIsFitting hd.toIsFitting
    obtain ⟨t, ht⟩ := exists_jointly hd.toIsFitting hc.toIsFitting
    have hiff := jointly_iff hc hd hcomparable.1 hcomparable.2
    have hiff' := jointly_iff hd hc hcomparable.1.symm hcomparable.2.symm
    rw [hr, ht, Option.some.injEq, Bool.eq_iff_iff]
    rw [hr, Option.some.injEq] at hiff
    rw [ht, Option.some.injEq] at hiff'
    rw [hiff, hiff']
    exact exists_congr fun _ => and_comm
  · have hleft : comparable c d = false := by simp [comparable]; grind
    have hright : comparable d c = false := by simp [comparable]; grind
    simp [jointly, hleft, hright]

section Given

/-- Whether an inequality tells an integer from its number, although that number is the double
nearest to the integer. -/
def RoundsAway (c : Constraint) (n : Int) : Prop :=
  c.operator = .neq ∧ ∃ x y, c.value = .number x ∧ Number.ofInt? n = some y ∧ y.same x = true ∧
    x.sameInt n = false

/-- The finite number that a given number is, or that an integer is rounded to. -/
def rounded? : Json → Option Rat
  | .int n => (Number.ofInt? n).bind Number.value?
  | .float y => y.value?
  | _ => none

theorem isFinite_of_ofInt? {n : Int} {y : Number} (h : Number.ofInt? n = some y) :
    ∃ q, y.value? = some q := by
  unfold Number.ofInt? at h
  split at h <;> cases h
  exact ⟨_, rfl⟩

/-- What is no finite number lies in no interval of a comparison. -/
theorem containsPoint_of_not_finite {o : Operator} {x y : Number} {a : Rat} {i : Interval}
    (hx : x.value? = some a) (hy : y.value? = none) (hi : intervalOf o x = some i) :
    i.containsPoint y = false := by
  cases y with
  | finite q => cases hy
  | negZero => cases hy
  | _ => cases x <;> cases hx <;> cases o <;> cases hi <;> rfl

variable {s : String} {o : Operator} {x : Number}

/-- A number that is accepted meets a comparison once it is rounded, unless it rounds away. -/
theorem meets_of_rounded {q : Rat} (hc : IsOrdinary ⟨s, o, .number x⟩)
    (hq : rounded? given = some q) (hround : ∀ n, given = .int n → ¬ RoundsAway ⟨s, o, .number x⟩ n)
    (h : checkNumeric o x given = .answer true) : Meets ⟨s, o, .number x⟩ (.number q) := by
  obtain ⟨a, ha⟩ := Option.isSome_iff_exists.mp (hc.finite x rfl)
  refine ⟨a, ha, ?_⟩
  cases given with
  | int n =>
      obtain ⟨y, hy, hyq⟩ := Option.bind_eq_some_iff.mp hq
      by_cases hne : o = .neq
      · subst hne
        have hno : x.sameInt n = false := by simpa [checkNumeric, checkInt] using h
        have haway : y.same x = false := by
          rw [← Bool.not_eq_true]
          exact fun hsame => hround n rfl ⟨rfl, x, y, rfl, hy, hsame, hno⟩
        have hne : q ≠ a := by simpa [Number.same_of_value? hyq ha] using haway
        exact hne
      · rw [checkNumeric, checkInt_eq_checkNumber hne hy] at h
        exact (checkNumber_iff hc.comparison hc.fits ha hyq).mp h
  | float y => exact (checkNumber_iff hc.comparison hc.fits ha hq).mp h
  | _ => cases hq

/-- What is no finite number, once it is rounded, is accepted by inequalities only. -/
theorem operator_eq_neq_of_rounded (hc : IsOrdinary ⟨s, o, .number x⟩) (hq : rounded? given = none)
    (h : checkNumeric o x given = .answer true) : o = .neq := by
  obtain ⟨a, ha⟩ := Option.isSome_iff_exists.mp (hc.finite x rfl)
  by_contra hne
  obtain ⟨i, hi⟩ := Rule.exists_intervalOf hc.comparison hc.fits hne x
  cases given with
  | int n =>
      have hnone : Number.ofInt? n = none := by
        cases hy : Number.ofInt? n with
        | none => rfl
        | some y =>
            obtain ⟨q, hyq⟩ := isFinite_of_ofInt? hy
            simp [rounded?, hy, hyq] at hq
      simp [checkNumeric, checkInt, hne, hi, hnone] at h
  | float y =>
      have hno := containsPoint_of_not_finite ha hq hi
      simp [checkNumeric, checkNumber, hne, hi, hno] at h
  | _ => cases h

theorem exists_of_satisfiedBy_list {items : List Json}
    (h : c.satisfiedBy (.arr items) = .answer true) :
    ∃ r ss, c.textRange? = some r ∧ excludes c.operator = r.complement ∧
      textsOf? items = some ss ∧ (ss.any r.named.contains != r.complement) = true := by
  obtain ⟨_, o, w⟩ := c
  have hof : ∀ {complement : Bool} {named : TextSet},
      checkText complement named (.arr items) = .answer true →
        ∃ ss, textsOf? items = some ss ∧ (ss.any named.contains != complement) = true := by
    intro complement named h
    rw [checkText] at h
    cases hss : textsOf? items with
    | none => simp [hss] at h
    | some ss => exact ⟨ss, rfl, by simpa [hss] using h⟩
  cases w with
  | text t =>
      obtain ⟨ss, hss, hany⟩ := hof h
      exact ⟨_, ss, rfl, rfl, hss, hany⟩
  | texts ts =>
      obtain ⟨ss, hss, hany⟩ := hof h
      exact ⟨_, ss, rfl, rfl, hss, hany⟩
  | _ => cases h

theorem comparable_of_jointly {k l : Constraint} (hno : k.jointly l = some false) :
    comparable k l = true := by
  by_contra h
  rw [Bool.not_eq_true] at h
  simp [jointly, h] at hno

/-- A list is accepted by two ranges that share no text only where neither is a complement. -/
theorem complement_eq_false_of_list {r t : TextRange} {ss : List String}
    (hno : r.jointly t = false) (hr : (ss.any r.named.contains != r.complement) = true)
    (ht : (ss.any t.named.contains != t.complement) = true) :
    r.complement = false ∧ t.complement = false := by
  obtain ⟨rs, rc⟩ := r
  obtain ⟨ts, tc⟩ := t
  cases rc <;> cases tc
  · exact ⟨rfl, rfl⟩
  · simp only [TextRange.jointly, Bool.not_eq_false', TextSet.subset_iff] at hno
    simp at hr ht
    grind
  · simp only [TextRange.jointly, Bool.not_eq_false', TextSet.subset_iff] at hno
    simp at hr ht
    grind
  · cases hno

/-- A list of texts is accepted by two constraints of which no text meets both only where both ask
for membership. -/
theorem excludes_of_list {items : List Json} {k l : Constraint} (hno : k.jointly l = some false)
    (hgk : k.satisfiedBy (.arr items) = .answer true)
    (hgl : l.satisfiedBy (.arr items) = .answer true) :
    excludes k.operator = false ∧ excludes l.operator = false := by
  obtain ⟨r, ss, hr, hrc, hss, hanyr⟩ := exists_of_satisfiedBy_list hgk
  obtain ⟨t, ss', ht, htc, hss', hanyt⟩ := exists_of_satisfiedBy_list hgl
  obtain rfl := Option.some.inj (hss.symm.trans hss')
  rw [jointly_of_textRange (comparable_of_jointly hno) hr ht, Option.some.injEq] at hno
  rw [hrc, htc]
  exact complement_eq_false_of_list hno hanyr hanyt

/-- A number that is accepted by two comparisons with numbers is near one that meets both. -/
theorem exists_meets_of_number {s t : String} {o p : Operator} {x y : Number}
    (hk : IsOrdinary ⟨s, o, .number x⟩) (hl : IsOrdinary ⟨t, p, .number y⟩)
    (hround : ∀ n, given = .int n →
      ¬ RoundsAway ⟨s, o, .number x⟩ n ∧ ¬ RoundsAway ⟨t, p, .number y⟩ n)
    (hgk : checkNumeric o x given = .answer true) (hgl : checkNumeric p y given = .answer true) :
    ∃ v, Meets ⟨s, o, .number x⟩ v ∧ Meets ⟨t, p, .number y⟩ v := by
  cases hq : rounded? given with
  | some q =>
      exact ⟨.number q, meets_of_rounded hk hq (fun n hn => (hround n hn).1) hgk,
        meets_of_rounded hl hq (fun n hn => (hround n hn).2) hgl⟩
  | none =>
      obtain rfl := operator_eq_neq_of_rounded hk hq hgk
      obtain rfl := operator_eq_neq_of_rounded hl hq hgl
      obtain ⟨a, ha⟩ := Option.isSome_iff_exists.mp (hk.finite x rfl)
      obtain ⟨b, hb⟩ := Option.isSome_iff_exists.mp (hl.finite y rfl)
      obtain ⟨q, hqa, hqb⟩ := (numbersJointly_iff ha hb (o := .neq) (p := .neq) rfl).mp rfl
      exact ⟨.number q, ⟨a, ha, hqa⟩, ⟨b, hb, hqb⟩⟩

/-- A given value that is accepted by two constraints of which no value meets both is a list of
texts, and both ask for membership; integers that round away are left out. -/
theorem exists_list_of_jointly {k l : Constraint} (hk : k.IsOrdinary) (hl : l.IsOrdinary)
    (hno : k.jointly l = some false)
    (hround : ∀ n, given = .int n → ¬ k.RoundsAway n ∧ ¬ l.RoundsAway n)
    (hgk : k.satisfiedBy given = .answer true) (hgl : l.satisfiedBy given = .answer true) :
    (∃ items, given = .arr items) ∧ excludes k.operator = false ∧ excludes l.operator = false := by
  have hcomparable := comparable_of_jointly hno
  simp only [comparable, Bool.and_eq_true, beq_iff_eq] at hcomparable
  have hnone : ¬ ∃ v, k.Meets v ∧ l.Meets v := by
    rw [← jointly_iff hk hl hcomparable.1 hcomparable.2, hno]
    simp
  have hscalar : given.scalar? = none := by
    rw [Option.eq_none_iff_forall_ne_some]
    exact fun v hv => hnone ⟨v, (satisfiedBy_iff hk hv).mp hgk, (satisfiedBy_iff hl hv).mp hgl⟩
  cases given with
  | arr items => exact ⟨⟨items, rfl⟩, excludes_of_list hno hgk hgl⟩
  | bool b => cases hscalar
  | str s => cases hscalar
  | _ =>
      -- only comparisons with numbers accept anything else
      obtain ⟨s, o, w⟩ := k
      obtain ⟨t, p, u⟩ := l
      cases w with
      | number x =>
          cases u with
          | number y => exact absurd (exists_meets_of_number hk hl hround hgk hgl) hnone
          | _ => cases hgl
      | _ => cases hgk

end Given

end Constraint
end Eligibility
