import Eligibility.Json
/-!
# Reports of refusals

**Content.**  Every refusal of the library is reported in one shape: a code to
dispatch on, a sentence, a category and details.  A detail that is already there
is not replaced by one that is added.
-/

namespace Eligibility

/-- The categories of refusals. -/
inductive Category where
  | schemaValidation
  | structuralInconsistency
  | scopeViolation
  | query
  deriving DecidableEq

/-- The name of a category. -/
def Category.name : Category → String
  | schemaValidation => "SCHEMA_VALIDATION"
  | structuralInconsistency => "STRUCTURAL_INCONSISTENCY"
  | scopeViolation => "SCOPE_VIOLATION"
  | query => "QUERY"

/-- A refusal as it is reported. -/
structure Report where
  category : Category
  code : String
  message : String
  details : List (String × Json)

namespace Report

/-- Details with one more, unless its key is taken. -/
def addDetail (k : String) (v : Json) (ds : List (String × Json)) : List (String × Json) :=
  match Json.lookup k ds with
  | some _ => ds
  | none => ds ++ [(k, v)]

/-- Details with one more that may be absent. -/
def addDetail? (k : String) (v : Option Json) (ds : List (String × Json)) : List (String × Json) :=
  match v with
  | some v => addDetail k v ds
  | none => ds

/-- A code, or the default where none is given. -/
def codeOr (default : String) : Option String → String
  | some c => if c = "" then default else c
  | none => default

/-- A report without a category of its own. -/
def general (message : String) (code : Option String) (details : List (String × Json)) : Report :=
  ⟨.schemaValidation, codeOr "POLICY_LOGIC_ERROR" code, message, details⟩

/-- A report on a rule or a field that is missing or does not fit. -/
def schema (message : String) (code : Option String) (ruleId field : Option Json)
    (details : List (String × Json)) : Report :=
  ⟨.schemaValidation, codeOr "INVALID_RULE" code, message,
    addDetail? "field" field (addDetail? "rule_id" ruleId details)⟩

/-- A report on rules that contradict themselves, with the clauses that hold them. -/
def structural (message : String) (clauses : List Json) (code : Option String)
    (details : List (String × Json)) : Report :=
  ⟨.structuralInconsistency, codeOr "CONTRADICTORY_CONDITIONS" code, message,
    addDetail "clause_references" (.arr clauses) details⟩

/-- A report on policies that are not evaluated together. -/
def scope (message : String) (code : Option String) (details : List (String × Json)) : Report :=
  ⟨.scopeViolation, codeOr "OUT_OF_SCOPE" code, message, details⟩

/-- A report on a policy that is not in the graph. -/
def unknownPolicy (policy : Json) (shown : String) : Report :=
  ⟨.query, "UNKNOWN_POLICY", "Policy '" ++ shown ++ "' is not present in the policy graph",
    [("policy_id", policy)]⟩

/-- A report as a JSON object. -/
def toJson (r : Report) : List (String × Json) := [
  ("error", .bool true), ("error_code", .str r.code), ("error_message", .str r.message),
  ("error_category", .str r.category.name), ("details", .obj r.details)]

end Report
end Eligibility
