import Eligibility.Fault
import Eligibility.Json.Nesting
import Eligibility.Settings.VariableFile
/-!
# Settings from their sources

**Sources.**  A setting is given by the caller, by a variable of the process or by
a variable of a file, in this order of precedence.  Where two sources give an
object its fields are put together.

**Names.**  A caller may spell the name of a setting in either case; of several
spellings the first one counts.

**Variables.**  The variable of a setting is its name behind a common beginning,
in either case.  A setting that has parts is given as JSON, and null gives
nothing; every other setting is read from the text of its variable.

**Functions.**
* `Settings.given`: the fields that variables give.
* `Settings.ofSources`: the settings of all sources.
-/

namespace Eligibility

namespace Json

mutual

/-- A value laid over another one; objects are put together. -/
def overlay (base : Json) : Json → Json
  | obj fs =>
      match base with
      | obj gs => obj (overlayFields gs fs)
      | _ => obj fs
  | j => j

/-- Fields laid over others. -/
def overlayFields (base : List (String × Json)) : List (String × Json) → List (String × Json)
  | [] => base
  | (k, v) :: r =>
      overlayFields (put k (match lookup k base with
        | some w => overlay w v
        | none => v) base) r

end

end Json

namespace Settings

/-- Where variables are set. -/
inductive Origin where
  | process
  | file
  deriving DecidableEq

/-- The name of an origin, as messages give it. -/
def Origin.name : Origin → String
  | process => "EnvSettingsSource"
  | file => "DotEnvSettingsSource"

/-- The beginning of the names of all variables. -/
def lead : String := "policy_logic_"

/-- The settings, and whether each one has parts. -/
def names : List (String × Bool) := [
  ("log_level", false), ("log_json", false), ("supported_schema_versions", true),
  ("extraction_confidence_threshold", false), ("eligible_confidence", false),
  ("conditional_confidence", false), ("low_confidence_warning", false),
  ("complexity_weights", true), ("nesting_depth_ceiling", false),
  ("condition_count_ceiling", false), ("default_readability", false),
  ("default_entity_type", false), ("conflict_max_workers", false)]

/-- The first field whose name is that of a setting, spelled in either case. -/
def spelling? (setting : String) (fields : List (String × Json)) : Option Json :=
  (fields.find? fun f => Text.lower f.1 = setting).map Prod.snd

/-- The fields that give settings, under their names. -/
def named (fields : List (String × Json)) : List (String × Json) :=
  names.filterMap fun n => (spelling? n.1 fields).map fun v => (n.1, v)

/-- The name of a weight that is spelled in either case. -/
def weightName (k : String) : String :=
  (Weights.names.find? fun n => n = Text.lower k).getD k

/-- The parts of a setting, the names of weights spelled in either case. -/
def parts (name : String) : Json → Json
  | .obj fs =>
      if name = "complexity_weights" then
        .obj (Json.ofPairs (fs.map fun f => (weightName f.1, f.2)))
      else .obj fs
  | j => j

/-- The value of a setting that is given by a text, unless the text gives nothing. -/
def valueOf (origin : Origin) (setting : String × Bool) (text : String) :
    Except Fault (Option Json) :=
  if setting.2 then
    if Json.isTooDeep Json.levelLimit text then .error .unbounded
    else match Json.read text with
    | .error _ => .error (.badSetting setting.1 origin.name)
    | .ok .null => .ok none
    | .ok j => .ok (some (parts setting.1 j))
  else .ok (some (.str text))

/-- The fields that variables give, of some of the settings. -/
def givenOf (origin : Origin) (vars : Variables) :
    List (String × Bool) → Except Fault (List (String × Json))
  | [] => .ok []
  | s :: r =>
      match vars.value? (lead ++ s.1) with
      | none => givenOf origin vars r
      | some text => do
          let value ← valueOf origin s text
          let rest ← givenOf origin vars r
          return (value.map fun v => (s.1, v)).toList ++ rest

/-- The fields that variables give. -/
def given (origin : Origin) (vars : Variables) : Except Fault (List (String × Json)) :=
  givenOf origin vars names

/-- The settings of fields that a caller gives, with the variables of the process and of a file. -/
def ofSources (fields : List (String × Json)) (process file : Variables) :
    Except Fault Settings := do
  let fromProcess ← given .process process
  let fromFile ← given .file file
  let fromBoth := Json.overlayFields fromFile fromProcess
  Fault.ofChecked (read (Json.overlayFields fromBoth (named fields)))

end Settings
end Eligibility
