import Eligibility.Text.Printable
import Eligibility.Text.Quoted
/-!
# Texts shown in messages

**Form.**  A message shows a text between single quotes, or between double
quotes when it holds a single quote and no double one.  A backslash and the
quote in use stand behind a backslash, line ends and tabs are shown by their
letters, and whatever does not print by its hexadecimal code.
-/

namespace Eligibility
namespace Text

/-- The last `k` hexadecimal digits of a number. -/
def hexDigits : Nat → Nat → List Char
  | 0, _ => []
  | k + 1, n => hexDigits k (n / 16) ++ [hexDigit (n % 16)]

/-- A character as it is shown between the quotes `q`. -/
def shownChar (q c : Char) : List Char :=
  if c = q ∨ c = '\\' then ['\\', c]
  else if c = '\n' then ['\\', 'n']
  else if c = '\r' then ['\\', 'r']
  else if c = '\t' then ['\\', 't']
  else if isPrintable c then [c]
  else if c.toNat < 256 then '\\' :: 'x' :: hexDigits 2 c.toNat
  else if c.toNat < 65536 then '\\' :: 'u' :: hexDigits 4 c.toNat
  else '\\' :: 'U' :: hexDigits 8 c.toNat

/-- The single quote. -/
def singleQuote : Char := Char.ofNat 39

/-- The quote that a shown text stands between. -/
def shownQuote (cs : List Char) : Char :=
  if singleQuote ∈ cs ∧ '"' ∉ cs then '"' else singleQuote

/-- A text as messages show it. -/
def shown (s : String) : String :=
  let cs := s.toList
  let q := shownQuote cs
  String.ofList (q :: (cs.flatMap (shownChar q) ++ [q]))

end Text
end Eligibility
