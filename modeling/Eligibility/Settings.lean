import Eligibility.Number.Decimal
import Eligibility.Schema
import Eligibility.Text.LetterCase
/-!
# Settings

**Content.**  What to log, which rule sets to take in, the confidence that a
decision needs, and the weights and ceilings of the complexity score.

**Bounds.**  Confidences and weights lie between zero and one, ceilings and
worker counts are at least one, the weights sum to one within a tolerance, and
the confidence of a conditional decision does not exceed that of a positive one.

**Functions.**
* `Weights.read`, `Settings.read`: readers of settings with some fields given.
* `Settings.standard`: the settings where nothing is given.
-/

namespace Eligibility
open Schema

/-- The levels of log events. -/
def logLevels : List String := ["DEBUG", "INFO", "WARNING", "ERROR"]

/-- The weights of the six complexity factors. -/
structure Weights where
  conditionCount : Number
  operatorDensity : Number
  nestingDepth : Number
  crossReferences : Number
  readability : Number
  ambiguity : Number
  deriving DecidableEq

namespace Weights

/-- A decimal with two places. -/
def hundredths (n : Nat) : Number := Number.ofRat (mkRat n 100)

/-- The standard weights. -/
def standard : Weights where
  conditionCount := hundredths 20
  operatorDensity := hundredths 15
  nestingDepth := hundredths 25
  crossReferences := hundredths 15
  readability := hundredths 15
  ambiguity := hundredths 10

/-- The weights in scoring order. -/
def toList (w : Weights) : List Number := [
  w.conditionCount, w.operatorDensity, w.nestingDepth, w.crossReferences, w.readability,
  w.ambiguity]

/-- The names of the factors in scoring order. -/
def names : List String := [
  "condition_count", "operator_density", "nesting_depth", "cross_reference_count",
  "readability_score", "ambiguity_count"]

/-- The weights as a JSON object. -/
def toJson (w : Weights) : Json := .obj (names.zip (w.toList.map Json.float))

/-- The sum of numbers from left to right, rounded after each step. -/
def total (round : Rat → Rat) (xs : List Rat) : Rat := xs.foldl (fun acc x => round (acc + x)) 0

/-- How far the sum of the weights may be from one. -/
def tolerance : Rat := Number.keep (mkRat 1 1000000)

/-- The weights as rationals. -/
def values (w : Weights) : List Rat := w.toList.map fun x => x.value?.getD 0

/-- The weights, if they sum to one within the tolerance. -/
def checkSum (w : Weights) : Checked Weights :=
  let sum := total Number.keep w.values
  if tolerance < Rounding.magnitude (Number.keep (sum - 1)) then
    .fail (.rejected ("complexity weights must sum to 1, got " ++
      String.ofList ((Number.finite sum).fixed 4)))
  else .ok w

/-- A number between zero and one. -/
def fraction : Reader Number := numberWithin 0 1

/-- Weights from the fields of a record, before their sum is checked. -/
def readFields (fs : List (String × Json)) : Checked Weights :=
  ((((((optional "condition_count" standard.conditionCount fraction fs).map Weights.mk).ap
    (optional "operator_density" standard.operatorDensity fraction fs)).ap
    (optional "nesting_depth" standard.nestingDepth fraction fs)).ap
    (optional "cross_reference_count" standard.crossReferences fraction fs)).ap
    (optional "readability_score" standard.readability fraction fs)).ap
    (optional "ambiguity_count" standard.ambiguity fraction fs)

/-- Weights given as a record. -/
def read : Reader Weights :=
  Schema.record "ComplexityWeights" fun fs => (readFields fs).bind checkSum

end Weights

/-- The settings of the library. -/
structure Settings where
  logLevel : String
  logJson : Bool
  supportedVersions : List String
  extractionThreshold : Number
  eligibleConfidence : Number
  conditionalConfidence : Number
  lowConfidenceWarning : Number
  weights : Weights
  nestingCeiling : Int
  conditionCeiling : Int
  defaultReadability : Number
  defaultEntity : String
  maxWorkers : Int
  deriving DecidableEq

namespace Settings

/-- The settings where nothing is given. -/
def standard : Settings where
  logLevel := "INFO"
  logJson := false
  supportedVersions := ["1.0"]
  extractionThreshold := Weights.hundredths 60
  eligibleConfidence := Weights.hundredths 70
  conditionalConfidence := Weights.hundredths 60
  lowConfidenceWarning := Weights.hundredths 60
  weights := Weights.standard
  nestingCeiling := 5
  conditionCeiling := 50
  defaultReadability := Weights.hundredths 50
  defaultEntity := "individual"
  maxWorkers := 1

/-- The name of a log level, in either case. -/
def level : Reader String
  | .str s => if Text.upper s ∈ logLevels then .ok (Text.upper s) else .fail (.notLiteral logLevels)
  | _ => .fail (.notLiteral logLevels)

/-- Settings from fields, before their confidences are compared. -/
def readFields (fs : List (String × Json)) : Checked Settings :=
  (((((((((((((optional "log_level" standard.logLevel level fs).map Settings.mk).ap
    (optional "log_json" standard.logJson Schema.flag fs)).ap
    (optional "supported_schema_versions" standard.supportedVersions (list Schema.text) fs)).ap
    (optional "extraction_confidence_threshold" standard.extractionThreshold
      Weights.fraction fs)).ap
    (optional "eligible_confidence" standard.eligibleConfidence Weights.fraction fs)).ap
    (optional "conditional_confidence" standard.conditionalConfidence Weights.fraction fs)).ap
    (optional "low_confidence_warning" standard.lowConfidenceWarning Weights.fraction fs)).ap
    (optional "complexity_weights" standard.weights Weights.read fs)).ap
    (optional "nesting_depth_ceiling" standard.nestingCeiling (integerFrom 1) fs)).ap
    (optional "condition_count_ceiling" standard.conditionCeiling (integerFrom 1) fs)).ap
    (optional "default_readability" standard.defaultReadability Weights.fraction fs)).ap
    (optional "default_entity_type" standard.defaultEntity Schema.text fs)).ap
    (optional "conflict_max_workers" standard.maxWorkers (integerFrom 1) fs)

/-- The settings, if a conditional decision needs no more confidence than a positive one. -/
def checkThresholds (s : Settings) : Checked Settings :=
  if s.eligibleConfidence.lt s.conditionalConfidence then
    .fail (.rejected "conditional_confidence must not exceed eligible_confidence")
  else .ok s

/-- Settings of which some fields are given. -/
def read (fs : List (String × Json)) : Checked Settings := (readFields fs).bind checkThresholds

/-- The settings as a JSON object. -/
def toJson (s : Settings) : Json := .obj [
  ("log_level", .str s.logLevel),
  ("log_json", .bool s.logJson),
  ("supported_schema_versions", Json.strs s.supportedVersions),
  ("extraction_confidence_threshold", .float s.extractionThreshold),
  ("eligible_confidence", .float s.eligibleConfidence),
  ("conditional_confidence", .float s.conditionalConfidence),
  ("low_confidence_warning", .float s.lowConfidenceWarning),
  ("complexity_weights", s.weights.toJson),
  ("nesting_depth_ceiling", .int s.nestingCeiling),
  ("condition_count_ceiling", .int s.conditionCeiling),
  ("default_readability", .float s.defaultReadability),
  ("default_entity_type", .str s.defaultEntity),
  ("conflict_max_workers", .int s.maxWorkers)]

end Settings
end Eligibility
