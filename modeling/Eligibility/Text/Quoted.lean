/-!
# Quoted texts

**Form.**  A quoted text stands between double quotes and is plain ASCII.  A
quote and a backslash are written behind a backslash, line ends, tabs,
backspaces and form feeds by their letters, and every other character outside
the printable ASCII range by the four hexadecimal digits of each of its 16-bit
units.

**Functions.**
* `quote`: the quoted form.
* `unquote`: reads a quoted form from just behind its opening quote; a refusal says why, and
  how many characters follow from the offending one on.
-/

namespace Eligibility
namespace Text

/-- Why a quoted text cannot be read. -/
inductive QuoteFault where
  | controlCharacter
  | unterminated
  | badEscape
  | badUnit
  deriving DecidableEq

namespace QuoteFault

/-- The wording of a refusal. -/
def message : QuoteFault → String
  | controlCharacter => "Invalid control character at"
  | unterminated => "Unterminated string starting at"
  | badEscape => "Invalid \\escape"
  | badUnit => "Invalid \\uXXXX escape"

end QuoteFault

section Writing

/-- The hexadecimal digit of a number below sixteen. -/
def hexDigit (n : Nat) : Char := Nat.digitChar n

/-- A number below `2 ^ 16` in four hexadecimal digits. -/
def hex4 (n : Nat) : List Char :=
  [hexDigit (n / 4096 % 16), hexDigit (n / 256 % 16), hexDigit (n / 16 % 16), hexDigit (n % 16)]

/-- A 16-bit unit behind a backslash. -/
def unitEscape (n : Nat) : List Char := '\\' :: 'u' :: hex4 n

/-- A character as it stands between the quotes. -/
def escapeChar (c : Char) : List Char :=
  if c = '"' then ['\\', '"']
  else if c = '\\' then ['\\', '\\']
  else if c = '\n' then ['\\', 'n']
  else if c = '\r' then ['\\', 'r']
  else if c = '\t' then ['\\', 't']
  else if c.toNat = 8 then ['\\', 'b']
  else if c.toNat = 12 then ['\\', 'f']
  else if 32 ≤ c.toNat ∧ c.toNat ≤ 126 then [c]
  else if c.toNat < 65536 then unitEscape c.toNat
  else
    unitEscape (0xd800 + (c.toNat - 65536) / 1024) ++ unitEscape (0xdc00 + (c.toNat - 65536) % 1024)

/-- The characters between the quotes. -/
def escape (cs : List Char) : List Char := cs.flatMap escapeChar

/-- The quoted form of a text. -/
def quoteChars (cs : List Char) : List Char := '"' :: (escape cs ++ ['"'])

/-- The quoted form of a text. -/
def quote (s : String) : String := String.ofList (quoteChars s.toList)

end Writing

section Reading

/-- The value of a hexadecimal digit of either case. -/
def hexValue? (c : Char) : Option Nat :=
  if '0' ≤ c ∧ c ≤ '9' then some (c.toNat - 48)
  else if 'a' ≤ c ∧ c ≤ 'f' then some (c.toNat - 87)
  else if 'A' ≤ c ∧ c ≤ 'F' then some (c.toNat - 55)
  else none

/-- The number written by four hexadecimal digits. -/
def unhex4? (a b c d : Char) : Option Nat :=
  match hexValue? a, hexValue? b, hexValue? c, hexValue? d with
  | some w, some x, some y, some z => some (w * 4096 + x * 256 + y * 16 + z)
  | _, _, _, _ => none

/-- Whether a unit is the first half of a pair. -/
def isHighUnit (n : Nat) : Bool := decide (0xd800 ≤ n) && decide (n ≤ 0xdbff)

/-- Whether a unit is the second half of a pair. -/
def isLowUnit (n : Nat) : Bool := decide (0xdc00 ≤ n) && decide (n ≤ 0xdfff)

/-- The character of a unit; a half that stands alone is replaced. -/
def unitChar (n : Nat) : Char := if isHighUnit n || isLowUnit n then Char.ofNat 0xfffd else Char.ofNat n

/-- The character of a pair of units. -/
def pairChar (hi lo : Nat) : Char := Char.ofNat (65536 + (hi - 0xd800) * 1024 + (lo - 0xdc00))

/-- The character behind a backslash, for the escapes of one letter. -/
def letterEscape? (c : Char) : Option Char :=
  if c = '"' ∨ c = '\\' ∨ c = '/' then some c
  else if c = 'b' then some (Char.ofNat 8)
  else if c = 'f' then some (Char.ofNat 12)
  else if c = 'n' then some '\n'
  else if c = 'r' then some '\r'
  else if c = 't' then some '\t'
  else none

/-- A refusal, with the number of characters from the offending one on. -/
abbrev Refusal := QuoteFault × Nat

/-- What four hexadecimal digits stand for, or a refusal at the letter `u` before them. -/
def readUnit : List Char → Except Refusal (Nat × List Char)
  | a :: b :: c :: d :: e :: r =>
      match unhex4? a b c d with
      | some n => .ok (n, e :: r)
      | none => .error (.badUnit, r.length + 6)
  | r => .error (.badUnit, r.length + 1)

/-- The second half of a pair, if it follows at once. -/
def readLowUnit (r : List Char) : Except Refusal (Option (Nat × List Char)) :=
  match r with
  | '\\' :: 'u' :: a :: b :: c :: d :: e :: s =>
      match unhex4? a b c d with
      | some n => .ok (if isLowUnit n then some (n, e :: s) else none)
      | none => .error (.badUnit, s.length + 6)
  | _ => .ok none

/-- The character behind `\u`, and what follows it. -/
def readUnicode (r : List Char) : Except Refusal (Char × List Char) :=
  match readUnit r with
  | .error e => .error e
  | .ok (n, s) =>
      if isHighUnit n then
        match readLowUnit s with
        | .error e => .error e
        | .ok (some (m, t)) => .ok (pairChar n m, t)
        | .ok none => .ok (unitChar n, s)
      else .ok (unitChar n, s)

/-- One step of reading: the closing quote, or a character and what follows it. -/
def readStep (start : Nat) : List Char → Except Refusal (Option Char × List Char)
  | [] => .error (.unterminated, start)
  | '"' :: r => .ok (none, r)
  | ['\\'] => .error (.unterminated, start)
  | '\\' :: 'u' :: r => (readUnicode r).map fun p => (some p.1, p.2)
  | '\\' :: c :: r =>
      match letterEscape? c with
      | some d => .ok (some d, r)
      | none => .error (.badEscape, r.length + 2)
  | c :: r => if c.toNat < 32 then .error (.controlCharacter, r.length + 1) else .ok (some c, r)

/-- Reads up to the closing quote, in at most `fuel` steps. -/
def readQuoted (start : Nat) : Nat → List Char → Except Refusal (List Char × List Char)
  | 0, _ => .error (.unterminated, start)
  | fuel + 1, cs =>
      match readStep start cs with
      | .error e => .error e
      | .ok (none, r) => .ok ([], r)
      | .ok (some c, r) => (readQuoted start fuel r).map fun p => (c :: p.1, p.2)

/-- Reads a quoted text from just behind its opening quote: the text, and what follows it. -/
def unquote (cs : List Char) : Except Refusal (List Char × List Char) :=
  readQuoted (cs.length + 1) (cs.length + 1) cs

end Reading

end Text
end Eligibility
