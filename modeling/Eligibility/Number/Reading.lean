import Eligibility.Number.Decimal
import Eligibility.Text.Blank
import Eligibility.Text.Digit
/-!
# Reading numbers

**Decimal texts.**  Digits, at most one point among or around them, and an
optional exponent; the value is the double nearest to the rational written.

**Words.**  `inf`, `infinity` and `nan`, in either case, stand for the numbers
that have no digits.

**Functions.**
* `Number.ofDecimal`: the double nearest to a signed decimal.
* `Number.readDecimal`: a decimal at the head of a text, and what follows it.
* `Number.read?`: a whole text, a sign and words allowed.
* `Number.readLoose?`: the same with blanks around it, digits of any script, and single
  underscores between digits.
-/

namespace Eligibility
namespace Number

/-- Exponents beyond this size, either way, leave the range of doubles. -/
def exponentBound : Int := 400

/-- The double nearest to a signed decimal. -/
def ofDecimal (negative : Bool) (d : Decimal) : Number :=
  let reach : Int := (Decimal.digitsOf d.digits).length + d.exponent
  if d.digits = 0 ∨ reach < -exponentBound then (if negative then .negZero else zero)
  else if exponentBound < reach then (if negative then .negInf else .posInf)
  else ofRat (if negative then -d.value else d.value)

/-- The ASCII digits at the head of a text, and what follows them. -/
def takeDigits (cs : List Char) : List Char × List Char :=
  (cs.takeWhile Char.isDigit, cs.dropWhile Char.isDigit)

/-- The number written by ASCII digits. -/
def digitsValue (ds : List Char) : Nat := Nat.ofDigitChars 10 ds 0

/-- A sign at the head of a text: whether it is a minus, and what follows it. -/
def takeSign : List Char → Bool × List Char
  | '-' :: r => (true, r)
  | '+' :: r => (false, r)
  | r => (false, r)

/-- An exponent at the head of a text, zero if there is none, and what follows it. -/
def takeExponent (cs : List Char) : Option Int × List Char :=
  match cs with
  | c :: r =>
      if c = 'e' ∨ c = 'E' then
        let s := takeSign r
        let d := takeDigits s.2
        if d.1.isEmpty then (none, cs)
        else (some (if s.1 then -(digitsValue d.1 : Int) else digitsValue d.1), d.2)
      else (none, cs)
  | [] => (none, [])

/-- A decimal at the head of a text, and what follows it. -/
def readDecimal (cs : List Char) : Option (Decimal × List Char) :=
  let whole := takeDigits cs
  let part :=
    match whole.2 with
    | '.' :: r => takeDigits r
    | r => ([], r)
  if whole.1.isEmpty && part.1.isEmpty then none
  else
    let e := takeExponent part.2
    some (⟨digitsValue (whole.1 ++ part.1), e.1.getD 0 - part.1.length⟩, e.2)

/-- The number that a word stands for. -/
def word? (negative : Bool) (cs : List Char) : Option Number :=
  let w := String.ofList (cs.map Char.toLower)
  if w = "inf" ∨ w = "infinity" then some (if negative then .negInf else .posInf)
  else if w = "nan" then some (.nan .fresh)
  else none

/-- The number written by a whole text. -/
def read? (cs : List Char) : Option Number :=
  let s := takeSign cs
  match readDecimal s.2 with
  | some (d, []) => some (ofDecimal s.1 d)
  | some _ => none
  | none => word? s.1 s.2

/-- Whether every underscore stands between two digits; `before` says whether a digit precedes. -/
def underscoresFit (before : Bool) : List Char → Bool
  | [] => true
  | '_' :: r => before && (r.head?.any Char.isDigit) && underscoresFit false r
  | c :: r => underscoresFit c.isDigit r

/-- The number written by a whole text, in the loose form. -/
def readLoose? (cs : List Char) : Option Number :=
  let t := Text.stripMargins (Text.asciiDigits cs)
  if underscoresFit false t then read? (t.filter (· ≠ '_')) else none

/-- Whether no underscore follows another one. -/
def underscoresApart : List Char → Bool
  | '_' :: '_' :: _ => false
  | _ :: r => underscoresApart r
  | [] => true

/-- Whether underscores neither begin nor end a text and never stand in pairs. -/
def underscoresInside (cs : List Char) : Bool :=
  cs.head? != some '_' && cs.getLast? != some '_' && underscoresApart cs

end Number
end Eligibility
