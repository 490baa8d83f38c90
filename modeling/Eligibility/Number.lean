/-!
# Numbers: double precision read as exact rationals

**Values.**  A number is the exact rational value of a finite double, a zero
that carries a minus sign, one of two infinities, or no number at all.  The
rational is stored as it is; `Number/Rounding` says which rationals occur.

**Order.**  Comparison is by value: the two zeros are the same, and nothing is
below, above or the same as what is no number.

**Marks.**  What is no number carries a mark of where it comes from.  Two of one
mark are alike, though they are not the same: collections recognize by likeness
what they hold.

**Results.**
* `same_finite`, `lt_finite`, `le_finite`: on finite numbers the comparisons are those of
  the rationals.
* `alike_finite`: finite numbers are alike when they are the same.
-/

namespace Eligibility

/-- Where something comes from that is no number: it was just computed, it stands in a JSON text,
it was given as such, or it was read with a node of a graph. -/
inductive Mark where
  | fresh
  | word
  | given (place : Nat)
  | stored (graph node : Nat)
  deriving DecidableEq

/-- A double-precision number. -/
inductive Number where
  | nan (mark : Mark)
  | negInf
  | posInf
  | negZero
  | finite (value : Rat)
  deriving DecidableEq

namespace Number

/-- The number zero, without a sign. -/
def zero : Number := .finite 0

/-- The number one. -/
def one : Number := .finite 1

instance : Inhabited Number := ⟨zero⟩

/-- The rational value of a finite number. -/
def value? : Number → Option Rat
  | .finite q => some q
  | .negZero => some 0
  | _ => none

/-- Whether the number is finite. -/
def isFinite (x : Number) : Bool := x.value?.isSome

/-- Whether this is no number. -/
def isNaN : Number → Bool
  | .nan _ => true
  | _ => false

/-- Equality by value. -/
def same : Number → Number → Bool
  | .negInf, .negInf => true
  | .posInf, .posInf => true
  | x, y =>
      match x.value?, y.value? with
      | some p, some q => decide (p = q)
      | _, _ => false

/-- Strict order by value. -/
def lt : Number → Number → Bool
  | .nan _, _ => false
  | _, .nan _ => false
  | .negInf, .negInf => false
  | .negInf, _ => true
  | _, .negInf => false
  | .posInf, _ => false
  | _, .posInf => true
  | x, y =>
      match x.value?, y.value? with
      | some p, some q => decide (p < q)
      | _, _ => false

/-- Order by value: below, or the same. -/
def le (x y : Number) : Bool := lt x y || same x y

/-- Whether a collection that holds one number holds the other one: the two are the same, or what
is no number has one mark that is not fresh. -/
def alike : Number → Number → Bool
  | .nan m, .nan n => decide (m = n) && decide (m ≠ .fresh)
  | x, y => same x y

/-- A number, a fresh mark replaced. -/
def marked (m : Mark) : Number → Number
  | .nan .fresh => .nan m
  | x => x

/-- The magnitude of a number. -/
def abs : Number → Number
  | .negInf => .posInf
  | .negZero => .finite 0
  | .finite q => .finite (if q < 0 then -q else q)
  | x => x

/-- The smaller of two numbers; the first one when neither is smaller. -/
def min (x y : Number) : Number := if lt y x then y else x

/-- The larger of two numbers; the first one when neither is larger. -/
def max (x y : Number) : Number := if lt x y then y else x

/-- Whether a number equals an integer of any size. -/
def sameInt (x : Number) (n : Int) : Bool :=
  match x.value? with
  | some q => decide (q = (n : Rat))
  | none => false

section Order

@[simp] theorem same_finite (p q : Rat) : same (.finite p) (.finite q) = decide (p = q) := rfl

@[simp] theorem alike_finite (p q : Rat) : alike (.finite p) (.finite q) = decide (p = q) := rfl

@[simp] theorem lt_finite (p q : Rat) : lt (.finite p) (.finite q) = decide (p < q) := rfl

theorem le_finite (p q : Rat) : le (.finite p) (.finite q) = decide (p ≤ q) := by
  by_cases h : p ≤ q
  · by_cases e : p = q
    · simp [le, e]
    · have : p < q := by grind
      simp [le, h, this]
  · have h1 : ¬ p < q := by grind
    have h2 : ¬ p = q := by grind
    simp [le, h, h1, h2]

end Order

end Number
end Eligibility
