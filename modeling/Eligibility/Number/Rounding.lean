import Eligibility.Number
/-!
# Rounding to double precision

**Rule.**  A rational is rounded to the nearest multiple of its last place, a
half going to the even neighbour.  The last place of a magnitude between
`2 ^ e` and `2 ^ (e + 1)` is `2 ^ (e - 52)`, and never finer than `2 ^ (-1074)`.
A magnitude that reaches `2 ^ 1024` is infinite, and a negative one that
vanishes leaves the zero with a minus sign.

**Functions.**
* `halfEven n d`: the whole number nearest to `n / d`.
* `Number.ofRat`: the nearest double.
* `Number.ofInt?`: the nearest double of an integer, if there is a finite one.
* `toPlaces k q`: the nearest multiple of `10 ^ (-k)`.
-/

namespace Eligibility
namespace Rounding

/-- The whole number nearest to `n / d`, a half going to the even neighbour. -/
def halfEven (n d : Nat) : Nat :=
  if 2 * (n % d) < d ∨ (2 * (n % d) = d ∧ n / d % 2 = 0) then n / d else n / d + 1

/-- The power `2 ^ e` for an exponent of either sign. -/
def pow2 (e : Int) : Rat :=
  if 0 ≤ e then (Nat.pow 2 e.toNat : Rat) else mkRat 1 (Nat.pow 2 (-e).toNat)

/-- The power `10 ^ e` for an exponent of either sign. -/
def pow10 (e : Int) : Rat :=
  if 0 ≤ e then (Nat.pow 10 e.toNat : Rat) else mkRat 1 (Nat.pow 10 (-e).toNat)

/-- The magnitude of a rational. -/
def magnitude (q : Rat) : Rat := if q < 0 then -q else q

/-- The exponent `e` with `2 ^ e ≤ q < 2 ^ (e + 1)`, for a positive `q`. -/
def binaryExponent (q : Rat) : Int :=
  let k : Int := (Nat.log2 q.num.natAbs : Int) - (Nat.log2 q.den : Int)
  if pow2 k ≤ q then k else k - 1

/-- The exponent of the last place kept of a positive rational. -/
def lastPlace (q : Rat) : Int :=
  let e := binaryExponent q - 52
  if e < -1074 then -1074 else e

/-- A positive rational rounded to its last place. -/
def roundMagnitude (q : Rat) : Rat :=
  let u := pow2 (lastPlace q)
  let s := q / u
  (halfEven s.num.natAbs s.den : Rat) * u

/-- A rational rounded to the nearest multiple of `10 ^ (-k)`, a half going to the even one. -/
def toPlaces (k : Nat) (q : Rat) : Rat :=
  let s := magnitude q * pow10 k
  let m : Rat := (halfEven s.num.natAbs s.den : Rat) * pow10 (-k)
  if q < 0 then -m else m

end Rounding

namespace Number
open Rounding

/-- The double nearest to a rational. -/
def ofRat (q : Rat) : Number :=
  if q = 0 then zero
  else
    let m := roundMagnitude (magnitude q)
    if pow2 1024 ≤ m then (if q < 0 then .negInf else .posInf)
    else if q < 0 then (if m = 0 then .negZero else .finite (-m))
    else .finite m

/-- The double nearest to an integer, unless it is out of range. -/
def ofInt? (n : Int) : Option Number :=
  match ofRat n with
  | .finite q => some (.finite q)
  | _ => none

/-- The rational kept of an exact result: the value of its nearest double. -/
def keep (q : Rat) : Rat := ((ofRat q).value?).getD 0

end Number
end Eligibility
