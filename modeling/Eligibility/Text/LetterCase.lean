/-!
# Letter case of ASCII words

**Table.**  Besides the letters of ASCII, a few other characters turn into letters of
ASCII when their case changes: a dotless i, a long s, a sharp s, the sign of a unit,
and the joined letters.  A word in ASCII can be spelled with them.

**Scope.**  The functions are for comparison with words in ASCII; a character that
does not turn into ASCII letters is left as it is.

**Functions.**
* `upper`, `lower`: a text in capitals and in small letters.
* `fold`: a text as it is compared regardless of case.
-/

namespace Eligibility
namespace Text

/-- The joined letters with the small letters they stand for. -/
def joinedLetters : List (Nat × List Char) := [
  (0xfb00, ['f', 'f']), (0xfb01, ['f', 'i']), (0xfb02, ['f', 'l']), (0xfb03, ['f', 'f', 'i']),
  (0xfb04, ['f', 'f', 'l']), (0xfb05, ['s', 't']), (0xfb06, ['s', 't'])]

/-- Characters outside ASCII with their capitals, where those are in ASCII. -/
def capitals : List (Nat × List Char) :=
  [(0xdf, ['S', 'S']), (0x131, ['I']), (0x17f, ['S'])] ++
    joinedLetters.map fun p => (p.1, p.2.map Char.toUpper)

/-- Characters outside ASCII with what they are compared by, where that is in ASCII. -/
def foldings : List (Nat × List Char) :=
  [(0xdf, ['s', 's']), (0x17f, ['s']), (0x1e9e, ['s', 's']), (0x212a, ['k'])] ++ joinedLetters

/-- A text in capitals. -/
def upper (s : String) : String :=
  String.ofList (s.toList.flatMap fun c => (capitals.lookup c.toNat).getD [c.toUpper])

/-- A character as a small letter. -/
def lowerChar (c : Char) : Char := if c.toNat = 0x212a then 'k' else c.toLower

/-- A text in small letters. -/
def lower (s : String) : String := String.ofList (s.toList.map lowerChar)

/-- A text as it is compared regardless of case. -/
def fold (s : String) : String :=
  String.ofList (s.toList.flatMap fun c => (foldings.lookup c.toNat).getD [c.toLower])

end Text
end Eligibility
