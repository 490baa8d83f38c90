import Eligibility.Digest.Sha256
import Eligibility.Name
import Eligibility.Schema
import Eligibility.TextSet
/-!
# Conflicts

**Content.**  A conflict has a kind and a severity, cites clauses and policies,
and gives evidence.  Its identifier is a digest of the kind and of the nodes
involved, so that it does not depend on how the conflict was found.

**Evidence.**  Evidence is any JSON value; a record states it in strict JSON.

**Functions.**
* `Conflict.identify`: the identifier of a kind and nodes.
* `ConflictReport.read`, `ConflictReport.toJson`: reports as JSON records.
-/

namespace Eligibility
open Schema

/-- The kinds of conflicts. -/
inductive ConflictKind where
  | contradiction
  | exclusion
  | circularity
  | incompatibleThreshold
  | impossibility
  deriving DecidableEq

namespace ConflictKind

/-- The kinds in the order in which they are looked for. -/
def all : List ConflictKind :=
  [contradiction, exclusion, circularity, incompatibleThreshold, impossibility]

/-- The name of a kind. -/
def name : ConflictKind → String
  | contradiction => "DIRECT_CONTRADICTION"
  | exclusion => "MUTUAL_EXCLUSION"
  | circularity => "CIRCULAR_DEPENDENCY"
  | incompatibleThreshold => "INCOMPATIBLE_THRESHOLD"
  | impossibility => "LOGICAL_IMPOSSIBILITY"

/-- The kind of a name. -/
def ofName? (s : String) : Option ConflictKind := all.find? fun k => k.name == s

end ConflictKind

/-- How bad a conflict is. -/
inductive Severity where
  | critical
  | high
  | medium
  | low
  deriving DecidableEq

namespace Severity

/-- The severities in the order of their declaration. -/
def all : List Severity := [critical, high, medium, low]

/-- The name of a severity. -/
def name : Severity → String
  | critical => "CRITICAL"
  | high => "HIGH"
  | medium => "MEDIUM"
  | low => "LOW"

/-- The severity of a name. -/
def ofName? (s : String) : Option Severity := all.find? fun x => x.name == s

/-- The rank of a severity. -/
def rank : Severity → Nat
  | low => 1
  | medium => 2
  | high => 3
  | critical => 4

end Severity

/-- A conflict. -/
structure Conflict where
  id : String
  kind : ConflictKind
  severity : Severity
  clauses : List String
  policies : List String
  explanation : String
  evidence : List (String × Json)

/-- What a search for conflicts found. -/
structure ConflictReport where
  conflicts : List Conflict
  suppressed : Int
  passes : List ConflictKind
  stopped : Bool

namespace Conflict

/-- How many digits of a digest identify a conflict. -/
def digestLength : Nat := 16

/-- The text that identifies a kind and nodes: the nodes are sorted and named once. -/
def key (k : ConflictKind) (nodes : List String) : String :=
  String.intercalate "|" (k.name :: (TextSet.ofList nodes).members)

/-- The identifier of a conflict of a kind between nodes. -/
def identify (k : ConflictKind) (nodes : List String) : String :=
  "CF-" ++ String.ofList ((Digest.digest (key k nodes)).toList.take digestLength)

/-- A conflict given as a record. -/
def read : Reader Conflict :=
  Schema.record "Conflict" fun fs =>
    (((((((required "conflict_id" Schema.text fs).map Conflict.mk).ap
      (required "conflict_type" (choice ConflictKind.all ConflictKind.name) fs)).ap
      (required "severity" (choice Severity.all Severity.name) fs)).ap
      (optional "involved_clauses" [] (Schema.list Schema.text) fs)).ap
      (optional "involved_policies" [] (Schema.list Schema.text) fs)).ap
      (required "explanation" Schema.text fs)).ap
      (optional "evidence" [] (mapping raw) fs)

/-- The record of a conflict. -/
def toJson (c : Conflict) : Json := .obj [
  ("conflict_id", .str c.id), ("conflict_type", .str c.kind.name),
  ("severity", .str c.severity.name), ("involved_clauses", Json.strs c.clauses),
  ("involved_policies", Json.strs c.policies), ("explanation", .str c.explanation),
  ("evidence", .obj (Json.strictFields c.evidence))]

end Conflict

namespace ConflictReport

/-- A report given as a record. -/
def read : Reader ConflictReport :=
  Schema.record "ConflictReport" fun fs =>
    ((((optional "conflicts" [] (Schema.list Conflict.read) fs).map ConflictReport.mk).ap
      (optional "suppressed_count" 0 Schema.integer fs)).ap
      (optional "passes_run" [] (Schema.list (choice ConflictKind.all ConflictKind.name)) fs)).ap
      (optional "terminated_early" false Schema.flag fs)

/-- The record of a report. -/
def toJson (r : ConflictReport) : Json := .obj [
  ("conflicts", .arr (r.conflicts.map Conflict.toJson)), ("suppressed_count", .int r.suppressed),
  ("passes_run", Json.strs (r.passes.map ConflictKind.name)),
  ("terminated_early", .bool r.stopped), ("conflict_count", Json.nat r.conflicts.length)]

/-- The conflicts of a kind. -/
def ofKind (r : ConflictReport) (k : ConflictKind) : List Conflict :=
  r.conflicts.filter fun c => c.kind = k

end ConflictReport
end Eligibility
