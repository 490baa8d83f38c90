import Eligibility.CommandLine.Argument
import Eligibility.Conflict
import Eligibility.Text.LetterCase
/-!
# Requests

**Content.**  A command, with the files it reads and the choices that are made for it.

**Functions.**
* `Command.words`: the words behind a command told apart, unless they ask for help.
* `Command.sources`: the files that a command reads as its arguments.
* `Command.request`: the request that words make of a command.
-/

namespace Eligibility
namespace CommandLine

section Commands

/-- The commands. -/
inductive Command where
  | validate
  | build
  | print
  | evaluate
  | simulate
  | score
  | detect
  deriving DecidableEq

namespace Command

/-- The commands in the order of their names. -/
def all : List Command := [build, detect, evaluate, print, score, simulate, validate]

/-- The name of a command. -/
def name : Command → String
  | validate => "validate"
  | build => "build"
  | print => "print"
  | evaluate => "evaluate"
  | simulate => "simulate"
  | score => "score"
  | detect => "detect"

/-- The command of a name. -/
def ofName? (s : String) : Option Command := all.find? fun c => c.name = s

/-- What a command does. -/
def summary : Command → String
  | validate => "Validate an IR file."
  | build => "Validate an IR file and compile it into a policy graph."
  | print => "Pretty-print every top-level rule of an IR file, one per line."
  | evaluate => "Evaluate eligibility for one policy (SOURCE is an IR or graph file)."
  | simulate => "Evaluate every policy against the same partial inputs."
  | score => "Compute the complexity score of a graph or policy."
  | detect => "Detect conflicts across one or more IR/graph files."

/-- The name of the argument of a command. -/
def argument : Command → String
  | validate | build | print => "IR_PATH"
  | evaluate | simulate | score => "SOURCE"
  | detect => "SOURCES..."

end Command

/-- The switch that asks for help. -/
def helpSwitch : Switch := { name := "help", help := "Show this message and exit." }

/-- A switch for a file to write to. -/
def outputSwitch (help : String) : Switch :=
  { name := "output", letter := some 'o', placeholder := some "PATH", help := help }

/-- A switch for a policy. -/
def policySwitch (help : String) : Switch :=
  { name := "policy", letter := some 'p', placeholder := some "TEXT", help := help }

/-- A switch for a file of inputs. -/
def inputsSwitch (help : String) : Switch :=
  { name := "inputs", letter := some 'i', placeholder := some "FILE", help := help }

/-- The switch that leaves annotations out. -/
def bareSwitch : Switch :=
  { name := "no-annotate", help := "Omit the \x7bid=.., clause=..\x7d blocks" }

/-- The switch that selects a pass. -/
def passSwitch : Switch :=
  { name := "pass"
    placeholder := some ("[" ++ String.intercalate "|" (ConflictKind.all.map ConflictKind.name) ++ "]")
    help := "Run only these passes (repeatable)" }

/-- The switches of a command. -/
def Command.switches : Command → List Switch
  | .validate => [helpSwitch]
  | .build => [outputSwitch "Output file for the graph", helpSwitch]
  | .print => [bareSwitch, helpSwitch]
  | .evaluate =>
      [policySwitch "Policy to evaluate  [required]", inputsSwitch "JSON file of user inputs",
        helpSwitch]
  | .simulate => [inputsSwitch "JSON file of partial user inputs", helpSwitch]
  | .score => [policySwitch "Score a single policy", helpSwitch]
  | .detect => [passSwitch, outputSwitch "Output file for the report", helpSwitch]

/-- The switches before the command. -/
def generalSwitches : List Switch := [
  { name := "log-level", placeholder := some "TEXT", help := "DEBUG, INFO, WARNING or ERROR" },
  { name := "json-logs", help := "Render logs as JSON" },
  { name := "version", help := "Show the version and exit." }, helpSwitch]

end Commands

section Requests

/-- What is asked for. -/
inductive Request where
  | validate (rules : String)
  | build (rules : String) (output : Option String)
  | print (rules : String) (annotate : Bool)
  | evaluate (source policy : String) (inputs : Option String)
  | simulate (source : String) (inputs : Option String)
  | score (source : String) (policy : Option String)
  | detect (sources : List String) (passes : List ConflictKind) (output : Option String)

namespace Request

/-- The file that the result goes to, where one is named. -/
def output? : Request → Option String
  | build _ output => output.filter (· ≠ "")
  | detect _ _ output => output.filter (· ≠ "")
  | _ => none

end Request

/-- The only argument of a command. -/
def onlyArgument (c : Command) (ws : Words) : Except Misuse String :=
  match ws.arguments with
  | [] => .error (.argumentMissing c.argument)
  | [a] => .ok a
  | _ :: more => .error (.extraArguments more)

/-- The arguments of a command, of which there is at least one. -/
def someArguments (c : Command) (ws : Words) : Except Misuse (List String) :=
  if ws.arguments.isEmpty then .error (.argumentMissing c.argument) else .ok ws.arguments

/-- A value of a switch that has to be given. -/
def neededValue (name : String) (ws : Words) : Except Misuse String :=
  match ws.value? name with
  | some v => .ok v
  | none => .error (.switchMissing name)

/-- A pass by its name, regardless of case. -/
def passOf (s : String) : Except Misuse ConflictKind :=
  match ConflictKind.all.find? fun k => Text.fold k.name = Text.fold s with
  | some k => .ok k
  | none => .error (.noSuchPass s)

/-- The request that words make of a command. -/
def Command.request (c : Command) (ws : Words) : Except Misuse Request :=
  match c with
  | .validate => (onlyArgument c ws).map .validate
  | .build => (onlyArgument c ws).map fun a => .build a (ws.value? "output")
  | .print => (onlyArgument c ws).map fun a => .print a (!ws.has "no-annotate")
  | .evaluate => do
      let policy ← neededValue "policy" ws
      let source ← onlyArgument c ws
      return .evaluate source policy (ws.value? "inputs")
  | .simulate => (onlyArgument c ws).map fun a => .simulate a (ws.value? "inputs")
  | .score => (onlyArgument c ws).map fun a => .score a (ws.value? "policy")
  | .detect => do
      let sources ← someArguments c ws
      let passes ← (ws.values "pass").mapM passOf
      return .detect sources passes (ws.value? "output")

/-- The words behind a command told apart, or none where they ask for help. -/
def Command.words (c : Command) (words : List String) : Except Misuse (Option Words) :=
  (Words.ofList c.switches true words).map fun ws => if ws.has "help" then none else some ws

/-- The files that a command reads as its arguments. -/
def Command.sources (c : Command) (ws : Words) : List String :=
  if c = .detect then ws.arguments else ws.arguments.take 1

end Requests

end CommandLine
end Eligibility
