import Eligibility.CommandLine.Help
import Eligibility.Complexity.Measure
import Eligibility.Conflict.Workers
import Eligibility.Json.Nesting
import Eligibility.PolicyGraph.Source
import Eligibility.Rule.Printer
import Eligibility.Settings.Environment
import Eligibility.Text.LineEnd
import Eligibility.Verdict.Simulation
/-!
# The command line

**Input.**  The words of a command line and the place where it is given: the
variables of the process and the files that can be read.

**Order.**  The words before the command are read first, then the settings, then the
words behind the command.  The values of switches are checked in order, then the files
that are to be read, and all of them have to be there before any of them is read.

**Outcome.**  A text that is printed or saved, a refusal that is reported, a fault
without a report, or a misuse.  What is wrong in the file of settings is remarked
upon beside it.

**Functions.**
* `Request.answer`: the text that answers a request.
* `run`: the end of a command line.
-/

namespace Eligibility
namespace CommandLine

section Places

/-- Where a command line is given. -/
structure Place where
  process : Variables
  file? : String → Option String

namespace Place

/-- The text of the file of settings, if there is one. -/
def variableText? (p : Place) : Option String := (p.file? ".env").map Text.unifyLineEnds

/-- The variables of the file of settings. -/
def fileVariables (p : Place) : Variables :=
  p.variableText?.elim [] (VariableFile.read p.process)

/-- The lines of the file of settings that are remarked upon. -/
def fileFaults (p : Place) : List Nat := p.variableText?.elim [] VariableFile.faultLines

/-- The settings of a place. -/
def settings (p : Place) : Except Fault Settings :=
  Settings.ofSources [] p.process p.fileVariables

/-- The value that a file holds. -/
def read (p : Place) (path : String) : Except Fault Json :=
  let text := Text.unifyLineEnds ((p.file? path).getD "")
  if Json.isTooDeep Json.levelLimit text then .error .unbounded
  else (Json.read text).mapError (Fault.ofFile path)

/-- The value that a file of inputs holds, or no inputs where none is named. -/
def readInputs (p : Place) (path : Option String) : Except Fault Json :=
  match path with
  | some path => p.read path
  | none => .ok (.obj [])

end Place

end Places

section Checks

/-- Why a command is not carried out: it is misused, or a path cannot be looked up. -/
inductive Obstacle where
  | misuse (cause : Misuse)
  | fault (cause : Fault)

/-- Whether a path can be used; a file that is to be read has to be there. -/
def Place.checkPath (p : Place) (isRead : Bool) (path : String) : Except Obstacle Unit :=
  if path.toList.contains '\x00' then .error (.fault (.badValue .nullCharacter))
  else if isRead && (p.file? path).isNone then .error (.misuse (.noSuchFile path))
  else .ok ()

/-- Whether the values of a switch can be used. -/
def Place.checkSwitch (p : Place) (ws : Words) (name : String) : Except Obstacle Unit :=
  let value := (ws.value? name).getD ""
  if name = "output" then p.checkPath false value
  else if name = "inputs" then p.checkPath true value
  else if name = "pass" then
    match (ws.values name).mapM passOf with
    | .error m => .error (.misuse m)
    | .ok _ => .ok ()
  else .ok ()

/-- Whether the words of a command can be used: its switches in order, then the files it reads. -/
def Place.checkWords (p : Place) (c : Command) (ws : Words) : Except Obstacle Unit := do
  ws.given.forM fun g => p.checkSwitch ws g.1
  (c.sources ws).forM (p.checkPath true)

end Checks

section Answers

/-- What is said of a valid rule set. -/
def overview (s : RuleSet) : Json := .obj [
  ("valid", .bool true), ("schema_version", .str s.version),
  ("root_rules", Json.nat s.rules.length), ("documents", Json.nat s.documents.length),
  ("fingerprint", .str s.fingerprint)]

/-- A value with one item a line, and a line end. -/
def page (j : Json) : String := j.indented ++ "\n"

/-- The text of a rule, and a line end. -/
def ruleLine (annotate : Bool) (r : Rule) : Except Fault String :=
  match r.print annotate with
  | some t => .ok (t ++ "\n")
  | none => .error .unprintable

/-- The texts of rules, one a line. -/
def ruleLines (annotate : Bool) (rs : List Rule) : Except Fault String :=
  (rs.mapM (ruleLine annotate)).map String.join

/-- The valid rule set of a payload. -/
def ruleSet (cfg : Settings) (payload : Json) : Except Fault RuleSet :=
  (RuleSet.parse cfg payload).mapError .rules

namespace Request

/-- The text that answers a request. -/
def answer (cfg : Settings) (p : Place) : Request → Except Fault String
  | validate rules => do
      let s ← ruleSet cfg (← p.read rules)
      return page (overview s)
  | build rules _ => do
      let g ← (RuleSet.compile cfg (← p.read rules)).outcome
      return page g.toJson
  | print rules annotate => do
      let s ← ruleSet cfg (← p.read rules)
      ruleLines annotate s.rules
  | evaluate source policy inputs => do
      let g ← (PolicyGraph.load cfg (← p.read source)).outcome
      let v ← (g.evaluate cfg (.str policy) (← p.readInputs inputs)).outcome
      return page v.toJson
  | simulate source inputs => do
      let g ← (PolicyGraph.load cfg (← p.read source)).outcome
      let vs ← (g.simulateJson cfg (← p.readInputs inputs)).outcome
      return page (.obj (vs.map fun v => (v.1, v.2.toJson)))
  | score source policy => do
      let g ← (PolicyGraph.load cfg (← p.read source)).outcome
      let x ← (g.score cfg none (Json.str? policy)).outcome
      return page x.toJson
  | detect sources passes _ => do
      let gs ← sources.zipIdx.mapM fun s => do
        let g ← (PolicyGraph.load cfg (← p.read s.1)).outcome
        return g.stored s.2
      let selected := if passes.isEmpty then none else some passes
      let r ← (PolicyGraph.detectAllBy cfg.maxWorkers Schedule.listed Impossibility.standard
        selected none gs).outcome
      return page r.toJson

end Request

end Answers

section Outcomes

/-- How a command line ends. -/
inductive Outcome where
  | printed (text : String)
  | saved (path text : String)
  | refused (report : Report)
  | failed (cause : Fault)
  | misused (cause : Misuse)

namespace Outcome

/-- The number that the process ends with. -/
def exitCode : Outcome → Nat
  | printed _ => 0
  | saved _ _ => 0
  | refused _ => 1
  | failed _ => 1
  | misused _ => 2

/-- What is printed as the result. -/
def output : Outcome → String
  | printed text => text
  | _ => ""

/-- What is printed beside the result. -/
def remarks : Outcome → String
  | printed _ => ""
  | saved path _ => "Results written to: " ++ path ++ "\n"
  | refused report => page (.obj report.toJson)
  | failed _ => "The command failed on data that no check covers.\n"
  | misused cause => usage ++ "\nError: " ++ cause.message ++ "\n"

/-- The outcome of a fault. -/
def ofFault (f : Fault) : Outcome :=
  match f.report? with
  | some r => refused r
  | none => failed f

/-- The outcome of a command that is not carried out. -/
def ofObstacle : Obstacle → Outcome
  | .misuse cause => misused cause
  | .fault cause => ofFault cause

/-- The outcome of a text that goes to a file, where one is named. -/
def ofText (path : Option String) (text : String) : Outcome :=
  match path with
  | some path => saved path text
  | none => printed text

end Outcome

/-- The end of a command line: the outcome, and the lines of the file of settings that were
remarked upon before. -/
structure Ending where
  outcome : Outcome
  faultLines : List Nat := []

/-- What is printed beside the result. -/
def Ending.remarks (e : Ending) : String :=
  String.join (e.faultLines.map VariableFile.remark) ++ e.outcome.remarks

/-- The outcome of a request. -/
def Request.outcome (cfg : Settings) (p : Place) (r : Request) : Outcome :=
  match r.answer cfg p with
  | .ok text => .ofText r.output? text
  | .error f => .ofFault f

/-- The names of the levels from which on events can be logged. -/
def thresholdNames : List String :=
  ["CRITICAL", "FATAL", "ERROR", "WARN", "WARNING", "INFO", "DEBUG", "NOTSET"]

/-- The settings, if the level that events are logged from has a name. -/
def checkLevel (ws : Words) (cfg : Settings) : Except Fault Settings :=
  let level := Text.upper (((ws.value? "log-level").filter (· ≠ "")).getD cfg.logLevel)
  if level ∈ thresholdNames then .ok cfg else .error (.missingKey (.str level))

/-- The text that the words before a command ask for instead of one. -/
def information? (ws : Words) : Option String :=
  ws.given.findSome? fun g =>
    if g.1 = "version" then some versionText else if g.1 = "help" then some help else none

/-- The outcome of a command with the words behind it. -/
def runCommand (cfg : Settings) (p : Place) (c : Command) (words : List String) : Outcome :=
  match c.words words with
  | .error m => .misused m
  | .ok none => .printed c.help
  | .ok (some ws) =>
      match p.checkWords c ws, c.request ws with
      | .error o, _ => .ofObstacle o
      | .ok (), .error m => .misused m
      | .ok (), .ok r => r.outcome cfg p

/-- The outcome of words that name no command: they may still ask for information. -/
def runUnknown (name : String) (words : List String) : Outcome :=
  match Words.ofList generalSwitches false (name :: words) with
  | .error m => .misused m
  | .ok ws => (information? ws).elim (.misused (.unknownCommand name)) .printed

/-- The end of a command line. -/
def run (p : Place) (words : List String) : Ending :=
  match Words.ofList generalSwitches false words with
  | .error m => ⟨.misused m, []⟩
  | .ok ws =>
      match information? ws, ws.arguments with
      | some text, _ => ⟨.printed text, []⟩
      | none, [] => ⟨.misused .commandMissing, []⟩
      | none, name :: rest =>
          match Command.ofName? name with
          | none => ⟨runUnknown name rest, []⟩
          | some c =>
              match p.settings.bind (checkLevel ws) with
              | .error f => ⟨.ofFault f, p.fileFaults⟩
              | .ok cfg => ⟨runCommand cfg p c rest, p.fileFaults⟩

end Outcomes

end CommandLine
end Eligibility
