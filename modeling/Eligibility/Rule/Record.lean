import Eligibility.Rule
import Eligibility.Schema
import Eligibility.Text.Blank
/-!
# Rules as JSON records

**Form.**  A rule is an object of eight fields, of which only the operator must
be there; other fields are ignored.  An operand is an object that names its kind,
or a bare value: a truth value, a number, a text or a list of texts.  Identifiers
lose the blanks around them, and null stands for an empty one.

**Depth.**  A record has a limited number of levels: a rule below the last one is a
flaw when it is read, and a rule that has more levels has no record.

**Functions.**
* `Operand.tagged`: a bare value as a tagged one.
* `Operand.read`, `Rule.read`: readers that collect every flaw.
* `Rule.toJson`: the record with all eight fields.
* `Rule.record?`: the record of a rule that is not too deep.
-/

namespace Eligibility
open Schema

namespace Operand

/-- A bare value in its tagged form; null and objects stay as they are. -/
def tagged : Json → Json
  | .null => .null
  | .obj fs => .obj fs
  | .bool b => .obj [("kind", .str "boolean"), ("value", .bool b)]
  | .int n => .obj [("kind", .str "numeric"), ("value", .int n)]
  | .float x => .obj [("kind", .str "numeric"), ("value", .float x)]
  | .str s => .obj [("kind", .str "string"), ("value", .str s)]
  | .arr xs => .obj [("kind", .str "string_set"), ("value", .arr xs)]

/-- The value of a tagged operand of a given kind. -/
def readAs (k : ValueKind) (fs : List (String × Json)) : Checked Operand :=
  match k with
  | .numeric => (required "value" Schema.number fs).map number
  | .string => (required "value" Schema.text fs).map text
  | .boolean => (required "value" Schema.flag fs).map flag
  | .stringSet =>
      (required "value" (listOr .notSet Schema.text) fs).map fun xs => texts (TextSet.ofList xs)

/-- A tagged operand. -/
def read : Reader Operand
  | .obj fs =>
      match Json.lookup "kind" fs with
      | none => .fail .noTag
      | some t =>
          match t with
          | .str s =>
              match ValueKind.ofName? s with
              | some k => (readAs k fs).under (.key s)
              | none => .fail (.unknownTag s)
          | _ => .fail (.unknownTag t.display)
  | _ => .fail .noSource

end Operand

namespace Rule

/-- An identifier: a text without the blanks around it, or null for an empty one. -/
def identifier : Reader String
  | .null => .ok ""
  | .str s => .ok (Text.strip s)
  | _ => .fail .notText

/-- An operand in its bare or tagged form, or null. -/
def operand : Reader (Option Operand) := fun j => nullable Operand.read (Operand.tagged j)

/-- A head and the children given with it, from the fields of a record. -/
def make (id subject : String) (operator : Operator) (value : Option Operand) (clause : String)
    (confidence : Option Number) (group : Option String) (children : List Rule) : Rule :=
  node ⟨id, subject, operator, value, clause, confidence, group⟩ children

/-- A rule from the fields of a record, given a reader of the rules below it. -/
def readFields (below : Reader Rule) (fs : List (String × Json)) : Checked Rule :=
  (((((((((optional "rule_id" "" identifier fs).map make).ap
    (optional "variable" "" identifier fs)).ap
    (required "operator" (choice Operator.all Operator.name) fs)).ap
    (optional "value" none operand fs)).ap
    (optional "clause_reference" "" identifier fs)).ap
    (optional "confidence" none (nullable Schema.number) fs)).ap
    (optional "logical_group" none (nullable Schema.text) fs)).ap
    (optional "children" [] (sequence below) fs))

/-- A rule of at most so many levels. -/
def readTo : Nat → Reader Rule
  | 0 => fun _ => .fail .tooNested
  | levels + 1 => Schema.record "LogicalRule" (readFields (readTo levels))

/-- The most levels of a rule in a record. -/
def levelLimit : Nat := 255

/-- A rule. -/
def read : Reader Rule := readTo levelLimit

/-- The fields of a head as a record, with the records of the rules below. -/
def headJson (h : Head) (children : List Json) : Json := .obj [
  ("rule_id", .str h.id), ("variable", .str h.subject), ("operator", .str h.operator.name),
  ("value", h.value.elim .null Operand.toJson), ("clause_reference", .str h.clause),
  ("confidence", Json.float? h.confidence), ("logical_group", Json.str? h.group),
  ("children", .arr children)]

mutual

/-- The record of a rule. -/
def toJson : Rule → Json
  | node h cs => headJson h (toJsonAll cs)

/-- The records of several rules. -/
def toJsonAll : List Rule → List Json
  | [] => []
  | r :: rs => toJson r :: toJsonAll rs

end

/-- The record of a rule, unless the rule has more levels than a record can have. -/
def record? (r : Rule) : Option Json := if r.depth ≤ levelLimit then some r.toJson else none

end Rule
end Eligibility
