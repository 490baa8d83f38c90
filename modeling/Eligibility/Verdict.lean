import Eligibility.Schema
import Eligibility.Settings
/-!
# Verdicts

**Content.**  A verdict is the status of one policy for one applicant: whether the
applicant is eligible, the confidence in that, the steps that led there, what is
still asked for, and warnings.

**Steps.**  A finding says what was evaluated and how it came out; numbered from
one, findings are the steps of a verdict.

**Functions.**
* `Finding.make`: a finding about a node, checked field by field.
* `Verdict.read`, `Verdict.toJson`: verdicts as JSON records.
-/

namespace Eligibility
open Schema

/-- The outcomes of a policy. -/
inductive Status where
  | eligible
  | notEligible
  | conditional
  deriving DecidableEq

namespace Status

/-- The outcomes in the order of their declaration. -/
def all : List Status := [eligible, notEligible, conditional]

/-- The name of an outcome. -/
def name : Status → String
  | eligible => "ELIGIBLE"
  | notEligible => "NOT_ELIGIBLE"
  | conditional => "CONDITIONAL"

end Status

/-- What an evaluated node says. -/
structure Finding where
  node : String
  rule : Option String
  clause : Option String
  operator : String
  consulted : List (String × Json)
  holds : Bool
  confidence : Number
  explanation : String
  pending : List String

/-- A finding with its number. -/
structure Step where
  number : Int
  finding : Finding

/-- The kinds of warnings. -/
inductive Caution where
  | missingInput
  | lowConfidence
  deriving DecidableEq

namespace Caution

/-- The kinds in the order of their declaration. -/
def all : List Caution := [missingInput, lowConfidence]

/-- The name of a kind. -/
def name : Caution → String
  | missingInput => "MissingInputWarning"
  | lowConfidence => "LowConfidenceWarning"

end Caution

/-- A warning that comes with a verdict. -/
structure Warning where
  kind : Caution
  message : String
  details : List (String × Json)

/-- The decision on a policy, with its reasons. -/
structure Verdict where
  policy : String
  status : Status
  trace : List Step
  confidence : Number
  requirements : Option (List String)
  warnings : List Warning

namespace Finding

/-- A confidence between zero and one. -/
def confidenceReader : Reader Number := Weights.fraction

/-- A finding about a node, whose values are taken as they come from the graph. -/
def make (node rule clause : Json) (operator : String) (consulted : List (String × Json))
    (holds : Bool) (confidence : Number) (explanation : String) (pending : List Json) :
    Checked Finding :=
  ((((((Schema.text node).under (.key "node_id")).map fun n r c x p =>
      (⟨n, r, c, operator, consulted, holds, x, explanation, p⟩ : Finding)).ap
    ((nullable Schema.text rule).under (.key "rule_id"))).ap
    ((nullable Schema.text clause).under (.key "clause_reference"))).ap
    ((confidenceReader (.float confidence)).under (.key "confidence"))).ap
    ((Schema.list Schema.text (.arr pending)).under (.key "pending_inputs"))

end Finding

namespace Step

/-- Findings numbered from `n` on. -/
def enumerate (n : Nat) : List Finding → List Step
  | [] => []
  | f :: r => ⟨n, f⟩ :: enumerate (n + 1) r

/-- A step from the values of its fields. -/
def make (number : Int) (node : String) (rule clause : Option String) (operator : String)
    (consulted : List (String × Json)) (holds : Bool) (confidence : Number) (explanation : String)
    (pending : List String) : Step :=
  ⟨number, ⟨node, rule, clause, operator, consulted, holds, confidence, explanation, pending⟩⟩

/-- A step given as a record. -/
def read : Reader Step :=
  Schema.record "ReasoningStep" fun fs =>
    ((((((((((required "step_number" (integerFrom 1) fs).map make).ap
      (required "node_id" Schema.text fs)).ap
      (optional "rule_id" none (nullable Schema.text) fs)).ap
      (optional "clause_reference" none (nullable Schema.text) fs)).ap
      (required "operator" Schema.text fs)).ap
      (optional "inputs_consulted" [] Schema.inputs fs)).ap
      (required "result" Schema.flag fs)).ap
      (required "confidence" Finding.confidenceReader fs)).ap
      (required "explanation" Schema.text fs)).ap
      (optional "pending_inputs" [] (Schema.list Schema.text) fs)

/-- The record of a step. -/
def toJson (s : Step) : Json := .obj [
  ("step_number", .int s.number), ("node_id", .str s.finding.node),
  ("rule_id", Json.str? s.finding.rule), ("clause_reference", Json.str? s.finding.clause),
  ("operator", .str s.finding.operator), ("inputs_consulted", .obj s.finding.consulted),
  ("result", .bool s.finding.holds), ("confidence", .float s.finding.confidence),
  ("explanation", .str s.finding.explanation), ("pending_inputs", Json.strs s.finding.pending)]

end Step

namespace Warning

/-- A detail of a warning: a text, a number or a list of texts. -/
def detail : Reader Json
  | .str s => .ok (.str s)
  | .arr xs =>
      match textItemFlaws 0 xs with
      | [] => .ok (.arr xs)
      | fs => .flawed ([⟨[.key "str"], .notText⟩, ⟨[.key "float"], .notNumber⟩] ++ fs)
  | j =>
      match Schema.number j with
      | .ok x => .ok (.float x)
      | .flawed _ =>
          .flawed [⟨[.key "str"], .notText⟩, ⟨[.key "float"], .notNumber⟩,
            ⟨[.key "list[str]"], .notList⟩]

/-- A warning given as a record. -/
def read : Reader Warning :=
  Schema.record "AnalysisWarning" fun fs =>
    (((required "category" (choice Caution.all Caution.name) fs).map Warning.mk).ap
      (required "message" Schema.text fs)).ap
      (optional "details" [] (mapping detail) fs)

/-- The record of a warning. -/
def toJson (w : Warning) : Json := .obj [
  ("category", .str w.kind.name), ("message", .str w.message), ("details", .obj w.details)]

end Warning

namespace Verdict

/-- Whether the applicant is eligible without reservation. -/
def isEligible (v : Verdict) : Bool := v.status = .eligible

/-- A verdict given as a record. -/
def read : Reader Verdict :=
  Schema.record "EligibilityResult" fun fs =>
    ((((((required "policy_id" Schema.text fs).map Verdict.mk).ap
      (required "status" (choice Status.all Status.name) fs)).ap
      (optional "reasoning_trace" [] (Schema.list Step.read) fs)).ap
      (required "confidence" Finding.confidenceReader fs)).ap
      (optional "conditional_requirements" none (nullable (Schema.list Schema.text)) fs)).ap
      (optional "warnings" [] (Schema.list Warning.read) fs)

/-- The record of a verdict. -/
def toJson (v : Verdict) : Json := .obj [
  ("policy_id", .str v.policy), ("status", .str v.status.name),
  ("reasoning_trace", .arr (v.trace.map Step.toJson)), ("confidence", .float v.confidence),
  ("conditional_requirements", (v.requirements.map Json.strs).getD .null),
  ("warnings", .arr (v.warnings.map Warning.toJson))]

end Verdict
end Eligibility
