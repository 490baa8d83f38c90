/-!
# Blank characters

**Table.**  The blank characters are the ASCII controls from tab to carriage
return, the four separators below the space, the space, and the spaces and line
ends of the larger code.

**Results.**
* `isBlank_of_isWhitespace`: every ASCII whitespace character is blank.
-/

namespace Eligibility
namespace Text

/-- The code points of the blank characters. -/
def blankCodes : List Nat := [
  0x9, 0xa, 0xb, 0xc, 0xd, 0x1c, 0x1d, 0x1e, 0x1f, 0x20, 0x85, 0xa0, 0x1680,
  0x2000, 0x2001, 0x2002, 0x2003, 0x2004, 0x2005, 0x2006, 0x2007, 0x2008, 0x2009, 0x200a,
  0x2028, 0x2029, 0x202f, 0x205f, 0x3000]

/-- Whether a character is blank. -/
def isBlank (c : Char) : Bool := blankCodes.contains c.toNat

/-- A text without the blanks at its start. -/
def stripLeft (cs : List Char) : List Char := cs.dropWhile isBlank

/-- A text without the blanks at its end. -/
def stripRight (cs : List Char) : List Char := (cs.reverse.dropWhile isBlank).reverse

/-- A text without the blanks around it. -/
def stripChars (cs : List Char) : List Char := stripRight (stripLeft cs)

/-- A text without the blanks around it. -/
def strip (s : String) : String := String.ofList (stripChars s.toList)

/-- Whether a character is blank around a number: the four separators are not. -/
def isMargin (c : Char) : Bool :=
  isBlank c && !(decide (0x1c ≤ c.toNat) && decide (c.toNat ≤ 0x1f))

/-- A number's text without the blanks around it. -/
def stripMargins (cs : List Char) : List Char :=
  ((cs.dropWhile isMargin).reverse.dropWhile isMargin).reverse

theorem isBlank_of_isWhitespace {c : Char} (h : c.isWhitespace = true) : isBlank c = true := by
  simp only [Char.isWhitespace, Bool.or_eq_true, decide_eq_true_eq] at h
  rcases h with ((h | h) | h) | h <;> subst h <;> decide

end Text
end Eligibility
