import Eligibility.Json
import Eligibility.Number.Decimal
import Eligibility.Text.Quoted
import Eligibility.TextSet
/-!
# Operands of comparisons

**Kinds.**  A comparison is against a number, a text, a truth value or a finite
set of texts.  Variables have a domain, which is one of the first three kinds: a
set of texts constrains a text.
-/

namespace Eligibility

/-- The kinds of operands and domains. -/
inductive ValueKind where
  | numeric
  | string
  | boolean
  | stringSet
  deriving DecidableEq

namespace ValueKind

/-- The kinds in the order of their declaration. -/
def all : List ValueKind := [numeric, string, boolean, stringSet]

/-- The name of a kind. -/
def name : ValueKind → String
  | numeric => "numeric"
  | string => "string"
  | boolean => "boolean"
  | stringSet => "string_set"

/-- The kind of a name. -/
def ofName? (s : String) : Option ValueKind := all.find? fun k => k.name == s

/-- The domain that an operand of this kind constrains. -/
def domain : ValueKind → ValueKind
  | stringSet => string
  | k => k

/-- Whether a variable can have this domain. -/
def isScalar : ValueKind → Bool
  | stringSet => false
  | _ => true

theorem ofName?_name (k : ValueKind) : ofName? k.name = some k := by cases k <;> decide

end ValueKind

/-- An operand of a comparison. -/
inductive Operand where
  | number (x : Number)
  | text (s : String)
  | flag (b : Bool)
  | texts (members : TextSet)
  deriving DecidableEq

namespace Operand

/-- The kind of an operand. -/
def kind : Operand → ValueKind
  | number _ => .numeric
  | text _ => .string
  | flag _ => .boolean
  | texts _ => .stringSet

/-- Equality by value: the two zeros are the same. -/
def same : Operand → Operand → Bool
  | number x, number y => x.same y
  | text s, text t => decide (s = t)
  | flag a, flag b => decide (a = b)
  | texts s, texts t => decide (s = t)
  | _, _ => false

/-- The text of a truth value. -/
def flagText (b : Bool) : List Char := if b then ['t', 'r', 'u', 'e'] else ['f', 'a', 'l', 's', 'e']

/-- Texts quoted one after the other, each but the first behind a comma. -/
def quotedList (first : Bool) : List String → List Char
  | [] => []
  | s :: r =>
      (if first then [] else [',', ' ']) ++ (Text.quoteChars s.toList ++ quotedList false r)

/-- The characters of an operand in rules and messages. -/
def chars : Operand → List Char
  | number x => x.brief
  | text s => Text.quoteChars s.toList
  | flag b => flagText b
  | texts s => '[' :: (quotedList true s.members ++ [']'])

/-- The text of an operand in rules and messages. -/
def describe (v : Operand) : String := String.ofList v.chars

/-- The bare value of an operand. -/
def bare : Operand → Json
  | number x => .float x
  | text s => .str s
  | flag b => .bool b
  | texts s => Json.strs s.members

/-- An operand as a tagged record. -/
def toJson (v : Operand) : Json := .obj [("kind", .str v.kind.name), ("value", v.bare)]

end Operand
end Eligibility
