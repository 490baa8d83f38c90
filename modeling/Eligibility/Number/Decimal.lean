import Eligibility.Number.Rounding
/-!
# Numbers in decimal text

**Shortest digits.**  A finite number is written with the fewest significant
digits that read back as the same number; of two such texts the nearer one,
and of two equally near ones the even one.  The search tries one digit, two
digits, and so on up to seventeen; a rational for which none of these reads
back is written out exactly.

**Layout.**  The point stands inside the digits while the number is at least
`10 ^ (-4)` and below `10 ^ 16`; outside that range one digit stands before the
point and an exponent of at least two digits follows.

**Functions.**
* `Number.written`: the shortest text, with `.0` on a whole number.
* `Number.brief`: the same without the `.0`.
* `Number.fixed`: a fixed count of places.
-/

namespace Eligibility

/-- A decimal `digits · 10 ^ exponent`. -/
structure Decimal where
  digits : Nat
  exponent : Int
  deriving DecidableEq

namespace Decimal
open Rounding

/-- The rational value of a decimal. -/
def value (d : Decimal) : Rat := (d.digits : Rat) * pow10 d.exponent

/-- The decimal digits of a natural number, the most significant first. -/
def digitsOf (n : Nat) : List Char := Nat.toDigits 10 n

/-- The exponent `e` with `10 ^ e ≤ q < 10 ^ (e + 1)`, for a positive `q`. -/
def decimalExponent (q : Rat) : Int :=
  let k : Int := ((digitsOf q.num.natAbs).length : Int) - (digitsOf q.den).length
  if pow10 k ≤ q then k else k - 1

/-- The two decimals of `n` significant digits next to `q`, the nearer one first. -/
def neighbours (q : Rat) (n : Nat) : List Decimal :=
  let e := decimalExponent q - ((n : Int) - 1)
  let s := q / pow10 e
  let near := halfEven s.num.natAbs s.den
  let low := s.num.natAbs / s.den
  [⟨near, e⟩, ⟨if near = low then low + 1 else low, e⟩]

/-- Whether a decimal reads back as the double `q`. -/
def readsAs (q : Rat) (d : Decimal) : Bool := decide (roundMagnitude d.value = q)

/-- The first decimal that reads back as `q`, trying `n`, `n + 1`, … significant digits. -/
def search (q : Rat) : Nat → Nat → Option Decimal
  | 0, _ => none
  | fuel + 1, n =>
      match (neighbours q n).find? (readsAs q) with
      | some d => some d
      | none => search q fuel (n + 1)

/-- A rational with a power of two below the line, written out in full. -/
def exact (q : Rat) : Decimal :=
  let b := Nat.log2 q.den
  ⟨q.num.natAbs * Nat.pow 5 b, -(b : Int)⟩

/-- The decimal chosen for a positive double. -/
def shortest (q : Rat) : Decimal := (search q 17 1).getD (exact q)

/-- The same decimal without zeros at the end of its digits. -/
def trim (d : Decimal) : Decimal :=
  if h : d.digits ≠ 0 ∧ d.digits % 10 = 0 then trim ⟨d.digits / 10, d.exponent + 1⟩ else d
termination_by d.digits
decreasing_by
  show d.digits / 10 < d.digits
  omega

/-- The text of an exponent: a sign and at least two digits. -/
def exponentText (e : Int) : List Char :=
  let ds := digitsOf e.natAbs
  (if e < 0 then '-' else '+') :: (if ds.length < 2 then '0' :: ds else ds)

/-- The digits `ds` laid out with the point after the first `point` of them. -/
def layout (ds : List Char) (point : Int) : List Char :=
  if -4 < point ∧ point ≤ 16 then
    if point ≤ 0 then '0' :: '.' :: (List.replicate (-point).toNat '0' ++ ds)
    else if point.toNat < ds.length then ds.take point.toNat ++ '.' :: ds.drop point.toNat
    else ds ++ List.replicate (point.toNat - ds.length) '0' ++ ['.', '0']
  else
    match ds with
    | [] => []
    | [d] => d :: 'e' :: exponentText (point - 1)
    | d :: r => d :: '.' :: r ++ 'e' :: exponentText (point - 1)

/-- The text of a decimal. -/
def text (d : Decimal) : List Char :=
  let t := d.trim
  let ds := digitsOf t.digits
  layout ds (ds.length + t.exponent)

/-- The text of an integer. -/
def ofInt (n : Int) : List Char :=
  if n < 0 then '-' :: digitsOf n.natAbs else digitsOf n.natAbs

/-- A non-negative rational with `k` places after the point, a half going to the even neighbour. -/
def places (k : Nat) (q : Rat) : List Char :=
  let s := q * pow10 k
  let ds := digitsOf (halfEven s.num.natAbs s.den)
  let ds := List.replicate (k + 1 - ds.length) '0' ++ ds
  if k = 0 then ds else ds.take (ds.length - k) ++ '.' :: ds.drop (ds.length - k)

end Decimal

namespace Number
open Rounding

/-- The shortest text of a number. -/
def written : Number → List Char
  | .nan _ => ['n', 'a', 'n']
  | .posInf => ['i', 'n', 'f']
  | .negInf => ['-', 'i', 'n', 'f']
  | .negZero => ['-', '0', '.', '0']
  | .finite q =>
      if q = 0 then ['0', '.', '0']
      else if q < 0 then '-' :: (Decimal.shortest (-q)).text
      else (Decimal.shortest q).text

/-- The text of a number, a whole number below `10 ^ 16` without point. -/
def brief (x : Number) : List Char :=
  match x.value? with
  | some q =>
      if magnitude q < pow10 16 ∧ q.den = 1 then Decimal.ofInt q.num else x.written
  | none => x.written

/-- The text of a number with `k` places after the point. -/
def fixed (k : Nat) : Number → List Char
  | .nan _ => ['n', 'a', 'n']
  | .posInf => ['i', 'n', 'f']
  | .negInf => ['-', 'i', 'n', 'f']
  | .negZero => '-' :: Decimal.places k 0
  | .finite q =>
      if q < 0 then '-' :: Decimal.places k (-q) else Decimal.places k q

end Number
end Eligibility
