import Eligibility.Digest.Sha256
import Eligibility.Json.Printer
import Eligibility.Rule.Record
/-!
# Rule sets and the documents they come from

**Content.**  A rule set holds rules, the documents whose clauses they cite, and
the declared domains of variables.  A document declares one policy: its clauses,
the policies it requires, and those it applies to.

**Fingerprint.**  The digest of the canonical JSON text identifies the content.

**Functions.**
* `RuleSet.read`: reads a rule set, collecting every flaw.
* `RuleSet.toJson`, `RuleSet.canonicalText`, `RuleSet.fingerprint`.
-/

namespace Eligibility
open Schema

/-- A clause of a source document. -/
structure Clause where
  id : String
  text : String := ""
  readability : Option Number := none
  ambiguous : Bool := false
  deriving DecidableEq

/-- A source document, which declares a policy. -/
structure Document where
  policy : String
  title : String := ""
  entity : Option String := none
  clauses : List Clause := []
  prerequisites : List String := []
  appliesTo : List String := []
  deriving DecidableEq

/-- Rules with the documents and domains they belong to. -/
structure RuleSet where
  version : String := "1.0"
  rules : List Rule := []
  documents : List Document := []
  domains : List (String × ValueKind) := []

namespace Clause

/-- A clause given as a record. -/
def read : Reader Clause :=
  Schema.record "ClauseRecord" fun fs =>
    ((((required "clause_id" nonEmptyText fs).map Clause.mk).ap
      (optional "text" "" Schema.text fs)).ap
      (optional "readability" none (nullable (numberWithin 0 1)) fs)).ap
      (optional "ambiguous" false Schema.flag fs)

/-- The record of a clause. -/
def toJson (c : Clause) : Json := .obj [
  ("clause_id", .str c.id), ("text", .str c.text), ("readability", Json.float? c.readability),
  ("ambiguous", .bool c.ambiguous)]

end Clause

namespace Document

/-- A document given as a record. -/
def read : Reader Document :=
  Schema.record "PolicyDocument" fun fs =>
    ((((((required "policy_id" nonEmptyText fs).map Document.mk).ap
      (optional "title" "" Schema.text fs)).ap
      (optional "entity_type" none (nullable Schema.text) fs)).ap
      (optional "clauses" [] (sequence Clause.read) fs)).ap
      (optional "requires" [] (sequence Schema.text) fs)).ap
      (optional "applies_to" [] (sequence Schema.text) fs)

/-- The record of a document. -/
def toJson (d : Document) : Json := .obj [
  ("policy_id", .str d.policy), ("title", .str d.title), ("entity_type", Json.str? d.entity),
  ("clauses", .arr (d.clauses.map Clause.toJson)), ("requires", Json.strs d.prerequisites),
  ("applies_to", Json.strs d.appliesTo)]

end Document

namespace RuleSet

/-- A rule set given as a record. -/
def read : Reader RuleSet :=
  Schema.record "IntermediateRepresentation" fun fs =>
    ((((optional "schema_version" "1.0" Schema.text fs).map RuleSet.mk).ap
      (optional "rules" [] (sequence Rule.read) fs)).ap
      (optional "documents" [] (sequence Document.read) fs)).ap
      (optional "variable_domains" [] (mapping (choice ValueKind.all ValueKind.name)) fs)

/-- The record of a rule set. -/
def toJson (s : RuleSet) : Json := .obj [
  ("schema_version", .str s.version), ("rules", .arr (Rule.toJsonAll s.rules)),
  ("documents", .arr (s.documents.map Document.toJson)),
  ("variable_domains", .obj (s.domains.map fun d => (d.1, .str d.2.name)))]

/-- The canonical text of a rule set. -/
def canonicalText (s : RuleSet) : String := s.toJson.canonical

/-- The digest that identifies the content of a rule set. -/
def fingerprint (s : RuleSet) : String := Digest.digest s.canonicalText

/-- The heads of all rules, tree after tree. -/
def heads (s : RuleSet) : List Head := Rule.headsOf s.rules

end RuleSet
end Eligibility
