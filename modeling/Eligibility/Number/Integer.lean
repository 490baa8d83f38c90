import Eligibility.Number.Reading
/-!
# Integers

**Texts.**  An integer is written by a sign and digits of any script, with single
underscores between digits and blanks around it.  Texts of more than
`digitLimit` digits are not read.

**Functions.**
* `Number.readInteger`: the integer written by a text.
* `Number.truncate`: the whole part of a rational.
-/

namespace Eligibility
namespace Number

/-- Why a text is read as no integer. -/
inductive IntegerFault where
  | malformed
  | tooLong (digits : Nat)
  deriving DecidableEq

/-- The most digits of an integer given as text. -/
def digitLimit : Nat := 4300

/-- The wording for a text of too many digits. -/
def tooLongMessage (digits : Nat) : String :=
  "Exceeds the limit (4300 digits) for integer string conversion: value has " ++
    String.ofList (Decimal.digitsOf digits) ++
    " digits; use sys.set_int_max_str_digits() to increase the limit"

/-- The integer written by a whole text. -/
def readInteger (cs : List Char) : Except IntegerFault Int :=
  let s := takeSign (Text.stripMargins (Text.asciiDigits cs))
  let part := s.2.takeWhile fun c => c.isDigit || c == '_'
  let ds := part.filter (· ≠ '_')
  if ds.isEmpty || !underscoresInside part then .error .malformed
  else if digitLimit < ds.length then .error (.tooLong ds.length)
  else if part.length < s.2.length then .error .malformed
  else .ok (if s.1 then -(digitsValue ds : Int) else digitsValue ds)

/-- A rational without its fraction. -/
def truncate (q : Rat) : Int := Int.tdiv q.num q.den

end Number
end Eligibility
