import Eligibility.Json
import Eligibility.Number.Integer
import Eligibility.Text.Quoted
/-!
# Reading JSON texts

**Input.**  A text; blanks are the space, the tab and the two line ends.  Besides
the values of the format, the words `NaN`, `Infinity` and `-Infinity` are read; an
integer of more digits than `Number.digitLimit` is not.

**Refusals.**  A refusal gives its cause and the number of characters from the
offending one to the end of the text; `Json.read` turns that into a position.

**Order.**  When a key comes twice its last value counts, at its first place.
-/

namespace Eligibility
namespace Json
open Text

/-- Why a text is not JSON. -/
inductive ReadFault where
  | byteOrderMark
  | expectingValue
  | expectingName
  | expectingColon
  | expectingComma
  | extraData
  | quoted (cause : QuoteFault)
  | tooLong (digits : Nat)
  deriving DecidableEq

namespace ReadFault

/-- The wording of a refusal. -/
def message : ReadFault → String
  | byteOrderMark => "Unexpected UTF-8 BOM (decode using utf-8-sig)"
  | expectingValue => "Expecting value"
  | expectingName => "Expecting property name enclosed in double quotes"
  | expectingColon => "Expecting ':' delimiter"
  | expectingComma => "Expecting ',' delimiter"
  | extraData => "Extra data"
  | quoted q => q.message
  | tooLong digits => Number.tooLongMessage digits

end ReadFault

/-- A refusal, with the number of characters from the offending one on. -/
abbrev ReadRefusal := ReadFault × Nat

/-- Whether a character is blank between the parts of a JSON text. -/
def isGap (c : Char) : Bool := c == ' ' || c == '\t' || c == '\n' || c == '\r'

/-- A text without the blanks at its head. -/
def skipGaps (cs : List Char) : List Char := cs.dropWhile isGap

/-- The fraction at the head of a text: its digits and what follows, if a point and a digit come. -/
def takeFraction (cs : List Char) : Option (List Char × List Char) :=
  match cs with
  | '.' :: r => if r.head?.any Char.isDigit then some (Number.takeDigits r) else none
  | _ => none

/-- The digits before the point: a single zero, or digits that begin with another one. -/
def takeWhole (cs : List Char) : Option (List Char × List Char) :=
  match cs with
  | '0' :: r => some (['0'], r)
  | c :: _ => if c.isDigit then some (Number.takeDigits cs) else none
  | [] => none

/-- A number at the head of a text, and what follows it. -/
def readNumber (cs : List Char) : Except ReadRefusal (Json × List Char) :=
  let negative := cs.head? == some '-'
  match takeWhole (if negative then cs.tail else cs) with
  | none => .error (.expectingValue, cs.length)
  | some (ds, r) =>
      let part := takeFraction r
      let e := Number.takeExponent (part.elim r (·.2))
      if part.isSome || e.1.isSome then
        let fs := part.elim [] (·.1)
        let d : Decimal := ⟨Number.digitsValue (ds ++ fs), e.1.getD 0 - fs.length⟩
        .ok (float (Number.ofDecimal negative d), e.2)
      else if Number.digitLimit < ds.length then .error (.tooLong ds.length, cs.length)
      else
        let n : Int := Number.digitsValue ds
        .ok (int (if negative then -n else n), r)

/-- The values that are written as words. -/
def words : List (String × Json) := [
  ("null", null), ("true", bool true), ("false", bool false), ("NaN", float (.nan .word)),
  ("Infinity", float .posInf), ("-Infinity", float .negInf)]

/-- The word at the head of a text, and what follows it. -/
def readWord (cs : List Char) : List (String × Json) → Option (Json × List Char)
  | [] => none
  | (w, v) :: r => if w.toList.isPrefixOf cs then some (v, cs.drop w.length) else readWord cs r

/-- A scalar at the head of a text, and what follows it. -/
def readScalar (cs : List Char) : Except ReadRefusal (Json × List Char) :=
  match cs with
  | '"' :: r =>
      match unquote r with
      | .ok (s, t) => .ok (str (String.ofList s), t)
      | .error (q, n) => .error (.quoted q, n)
  | _ =>
      match readWord cs words with
      | some p => .ok p
      | none => readNumber cs

/-- A key and the colon behind it, and what follows them. -/
def readKey (cs : List Char) : Except ReadRefusal (String × List Char) :=
  match cs with
  | '"' :: r =>
      match unquote r with
      | .ok (s, t) =>
          match skipGaps t with
          | ':' :: u => .ok (String.ofList s, skipGaps u)
          | u => .error (.expectingColon, u.length)
      | .error (q, n) => .error (.quoted q, n)
  | _ => .error (.expectingName, cs.length)

mutual

/-- A value at the head of a text, and what follows it. -/
def readValue : Nat → List Char → Except ReadRefusal (Json × List Char)
  | 0, cs => .error (.expectingValue, cs.length)
  | fuel + 1, cs =>
      match cs with
      | '[' :: r =>
          match skipGaps r with
          | ']' :: t => .ok (arr [], t)
          | t => (readItems fuel t).map fun p => (arr p.1, p.2)
      | '{' :: r =>
          match skipGaps r with
          | '}' :: t => .ok (obj [], t)
          | t => (readFields fuel t).map fun p => (obj (ofPairs p.1), p.2)
      | _ => readScalar cs

/-- The items of a list up to its bracket, and what follows it. -/
def readItems : Nat → List Char → Except ReadRefusal (List Json × List Char)
  | 0, cs => .error (.expectingValue, cs.length)
  | fuel + 1, cs =>
      match readValue fuel cs with
      | .error e => .error e
      | .ok (v, r) =>
          match skipGaps r with
          | ']' :: t => .ok ([v], t)
          | ',' :: t => (readItems fuel (skipGaps t)).map fun p => (v :: p.1, p.2)
          | t => .error (.expectingComma, t.length)

/-- The fields of an object up to its brace, and what follows it. -/
def readFields : Nat → List Char → Except ReadRefusal (List (String × Json) × List Char)
  | 0, cs => .error (.expectingValue, cs.length)
  | fuel + 1, cs =>
      match readKey cs with
      | .error e => .error e
      | .ok (k, r) =>
          match readValue fuel r with
          | .error e => .error e
          | .ok (v, s) =>
              match skipGaps s with
              | '}' :: t => .ok ([(k, v)], t)
              | ',' :: t => (readFields fuel (skipGaps t)).map fun p => ((k, v) :: p.1, p.2)
              | t => .error (.expectingComma, t.length)

end

/-- The value of a whole text. -/
def readAll (cs : List Char) : Except ReadRefusal Json :=
  if cs.head? = some (Char.ofNat 0xfeff) then .error (.byteOrderMark, cs.length)
  else
    match readValue (2 * cs.length + 2) (skipGaps cs) with
    | .error e => .error e
    | .ok (v, r) =>
        match skipGaps r with
        | [] => .ok v
        | t => .error (.extraData, t.length)

/-- A refusal with the place it points at. -/
structure Misread where
  cause : ReadFault
  line : Nat
  column : Nat
  position : Nat

/-- The wording of a refusal with its place. -/
def Misread.message (m : Misread) : String :=
  m.cause.message ++ ": line " ++ toString m.line ++ " column " ++ toString m.column ++
    " (char " ++ toString m.position ++ ")"

/-- The place of the character that `rest` others follow, itself counted. -/
def locate (cs : List Char) (e : ReadRefusal) : Misread :=
  let position := cs.length - e.2
  let before := cs.take position
  ⟨e.1, before.count '\n' + 1, (before.reverse.takeWhile (· ≠ '\n')).length + 1, position⟩

/-- The value of a whole text, or where it fails to be one. -/
def read (s : String) : Except Misread Json :=
  let cs := s.toList
  (readAll cs).mapError (locate cs)

end Json
end Eligibility
