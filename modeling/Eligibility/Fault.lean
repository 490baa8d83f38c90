import Eligibility.Json.Mapping
import Eligibility.Rule.Parser
import Eligibility.RuleSet.Validation
/-!
# Faults

**Causes.**  Everything that an operation of the library can refuse, or cannot
carry out, is one cause.  Most causes are reported in the common shape; the last
group has no report, because it arises only from data that no check has seen: a
graph file with values of the wrong kind, numbers out of range, or a text whose parts lie
too deep.

**Results.**
* `report?_isSome`: which causes are reported.
-/

namespace Eligibility
open Schema

/-- Why a value of the right kind does not do. -/
inductive BadValue where
  | unknownName (value : Json) (kind : String)
  | noComplement (operator : Operator)
  | notNumber (text : String)
  | notInteger (text : String)
  | tooLong (digits : Nat)
  | noInteger
  | noNode
  | emptyMinimum
  | emptyMaximum
  | notPairs (position length : Nat)
  | tooNested
  | nullCharacter

/-- Why a serialized graph is malformed. -/
inductive PayloadFault where
  | missingKey (key : String)
  | badValue (cause : BadValue)
  | flawed (flaws : List Flaw)
  | wrongType

/-- A condition of a contradiction, with the rule and the clause that state it. -/
structure Cited where
  constraint : String
  rule : Name
  clause : Name

/-- Why an operation did not give a result. -/
inductive Fault where
  | rules (cause : RuleFault)
  | unreadableRule (cause : Rule.Complaint) (position : Nat)
  | unprintable
  | unreadableFile (path : String) (cause : Json.Misread)
  | duplicateNode (id : Name)
  | unknownEndpoint (edge node : Name)
  | malformedGraph (cause : PayloadFault)
  | conflictingNode (id : Name) (graph : Nat)
  | malformedQuery (flaws : List Flaw)
  | malformedInputs (flaws : List Flaw)
  | contradiction (policy : Name) (first second : Cited) (subject : Name)
  | circularRequirement (cycle : List String) (clauses : List Name)
  | unlinked (first second : Name) (sorted : List Name)
  | differentEntities (first firstEntity second secondEntity : Name) (sorted : List Name)
  | unknownPolicy (policy : Name)
  | misread (cause : Json.Misread)
  | flawed (flaws : List Flaw)
  | missingKey (key : Json)
  | badValue (cause : BadValue)
  | badSetting (field origin : String)
  | wrongType
  | noAttribute
  | noItem
  | outOfRange
  | unbounded

/-- The most characters that the wording for a text that is no integer shows of it. -/
def shownLimit : Nat := 200

/-- The wording of a bad value. -/
def BadValue.message : BadValue → String
  | unknownName v kind => v.shown ++ " is not a valid " ++ kind
  | noComplement o => o.name ++ " has no comparison complement"
  | notNumber s => "could not convert string to float: " ++ Text.shown s
  | notInteger s =>
      "invalid literal for int() with base 10: " ++
        String.ofList ((Text.shown s).toList.take shownLimit)
  | tooLong digits => Number.tooLongMessage digits
  | noInteger => "cannot convert float NaN to integer"
  | noNode => "None cannot be a node"
  | emptyMinimum => "min() arg is an empty sequence"
  | emptyMaximum => "max() arg is an empty sequence"
  | notPairs p n =>
      "dictionary update sequence element #" ++ RuleFault.count p ++ " has length " ++
        RuleFault.count n ++ "; 2 is required"
  | tooNested => "Circular reference detected (depth exceeded)"
  | nullCharacter => "embedded null byte"

namespace PayloadFault

/-- The wording of a fault; flaws and wrong types are left to the reader of the cause. -/
def message : PayloadFault → String
  | missingKey k => Problem.inQuotes k
  | badValue cause => cause.message
  | flawed _ => "<validation>"
  | wrongType => "<TypeError>"

end PayloadFault

namespace Fault

/-- The sentence and the field of the first flaw of a query. -/
def firstFlaw (fs : List Flaw) : String × String :=
  match fs with
  | [] => ("", "")
  | f :: _ => (f.problem.message, f.location)

/-- A report on a graph. -/
def onGraph (message : String) (details : List (String × Json)) : Report :=
  Report.schema message (some "INVALID_GRAPH") none none details

/-- A condition and its clause in a sentence. -/
def citation (c : Cited) : String :=
  "'" ++ c.constraint ++ "' (clause " ++ c.clause.display ++ ")"

/-- The report of a cause, if it has one. -/
def report? : Fault → Option Report
  | rules cause => some cause.report
  | unreadableRule cause position =>
      some (Report.schema (cause.message ++ " at position " ++ RuleFault.count position)
        (some "PARSE_ERROR") none none [("position", Json.nat position)])
  | unprintable =>
      some (Report.schema "Cannot print operand None" (some "TYPE_MISMATCH") none
        (some (.str "value")) [])
  | unreadableFile path cause =>
      some (Report.schema (path ++ " is not valid JSON: " ++ cause.cause.message)
        (some "MALFORMED_JSON") none none
        [("path", .str path), ("line", Json.nat cause.line), ("column", Json.nat cause.column)])
  | duplicateNode id =>
      some (onGraph ("Duplicate node id '" ++ id.display ++ "' in policy graph") [("node_id", id)])
  | unknownEndpoint edge node =>
      some (onGraph ("Edge '" ++ edge.display ++ "' references unknown node '" ++ node.display ++ "'")
        [("edge_id", edge), ("node_id", node)])
  | malformedGraph cause => some (onGraph ("Malformed policy graph payload: " ++ cause.message) [])
  | conflictingNode id graph =>
      some (onGraph ("Node '" ++ id.display ++
        "' is defined differently by two of the composed graphs")
        [("node_id", id), ("graph_index", Json.nat graph)])
  | malformedQuery fs =>
      some (Report.schema ("Malformed eligibility query: " ++ (firstFlaw fs).1)
        (some "INVALID_QUERY") none (some (.str (firstFlaw fs).2)) [])
  | malformedInputs fs =>
      some (Report.schema ("Malformed user inputs: " ++ (firstFlaw fs).1) (some "INVALID_QUERY")
        none (some (.str "user_inputs")) [])
  | contradiction policy first second subject =>
      some (Report.structural
        ("Policy '" ++ policy.display ++ "' requires both " ++ citation first ++ " and " ++
          citation second ++ "; no value satisfies both")
        [first.clause, second.clause] none
        [("policy_id", policy), ("rule_ids", .arr [first.rule, second.rule]),
          ("variable", subject)])
  | circularRequirement cycle clauses =>
      some (Report.structural
        ("Circular policy requirement: " ++ String.intercalate " -> " cycle) clauses
        (some "CIRCULAR_REQUIREMENT") [("cycle", Json.strs cycle)])
  | unlinked first second sorted =>
      some (Report.scope
        ("Policies '" ++ first.display ++ "' and '" ++ second.display ++ "' are not linked") none
        [("policies", .arr sorted), ("reason", .str "unlinked")])
  | differentEntities first firstEntity second secondEntity sorted =>
      some (Report.scope
        ("Policies '" ++ first.display ++ "' (" ++ firstEntity.display ++ ") and '" ++
          second.display ++ "' (" ++ secondEntity.display ++
          ") apply to different entity types") none
        [("policies", .arr sorted), ("reason", .str "entity_type")])
  | unknownPolicy policy => some (Report.unknownPolicy policy policy.display)
  | _ => none

/-- The flaws that a reported cause embeds. -/
def embedded : Fault → List Flaw
  | malformedGraph (.flawed fs) => fs
  | _ => []

/-- Whether a cause is reported in the common shape. -/
def isReported : Fault → Bool
  | misread _ => false
  | flawed _ => false
  | missingKey _ => false
  | badValue _ => false
  | badSetting _ _ => false
  | wrongType => false
  | noAttribute => false
  | noItem => false
  | outOfRange => false
  | unbounded => false
  | _ => true

theorem report?_isSome (f : Fault) : f.report?.isSome = f.isReported := by cases f <;> rfl

/-- The cause of a text that cannot be read as a rule. -/
def ofParse : Rule.ParseFault → Fault
  | .refused cause position => unreadableRule cause position
  | .misread cause => misread cause
  | .flawed fs => flawed fs

/-- The cause of a file that is not JSON. -/
def ofFile (path : String) (m : Json.Misread) : Fault :=
  match m.cause with
  | .tooLong digits => badValue (.tooLong digits)
  | _ => unreadableFile path m

/-- A reading as a result, its flaws being the cause. -/
def ofChecked {α : Type} : Checked α → Except Fault α
  | .ok a => .ok a
  | .flawed fs => .error (flawed fs)

/-- The wording of a setting that cannot be read. -/
def settingMessage (field origin : String) : String :=
  "error parsing value for field \"" ++ field ++ "\" from source \"" ++ origin ++ "\""

/-- The entries of a mapping given as JSON. -/
def mapping (j : Json) : Except Fault (Entries Json) :=
  match j.mapping with
  | .ok es => .ok es
  | .error (.notPair p n) => .error (badValue (.notPairs p n))
  | .error .wrongType => .error wrongType

/-- The entries of a mapping given as JSON, none where the value is empty. -/
def mappingOrEmpty (j : Json) : Except Fault (Entries Json) :=
  if j.truthy then mapping j else .ok []

/-- A number given as JSON: a number, a truth value, or a text that is a number. -/
def number : Json → Except Fault Number
  | .float x => .ok x
  | .bool b => .ok (if b then Number.one else Number.zero)
  | .int n =>
      match Number.ofInt? n with
      | some x => .ok x
      | none => .error outOfRange
  | .str s =>
      match Number.readLoose? s.toList with
      | some x => .ok x
      | none => .error (badValue (.notNumber s))
  | _ => .error wrongType

/-- Whether one name comes before another one, unless they have no order. -/
def ordered (a b : Name) : Except Fault Bool :=
  match Name.before? a b with
  | some answer => .ok answer
  | none => .error wrongType

/-- Names in rising order, unless they have none. -/
def sorted (ns : List Name) : Except Fault (List Name) :=
  match Name.sort? ns with
  | some ms => .ok ms
  | none => .error wrongType

end Fault
end Eligibility
