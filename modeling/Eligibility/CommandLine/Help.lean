import Eligibility.CommandLine.Request
/-!
# Help on the command line

**Form.**  A line on how to call, a sentence on what is done, and the switches in two
columns; help on the whole program lists its commands as well.
-/

namespace Eligibility
namespace CommandLine

/-- The name of the program. -/
def programName : String := "policy-logic"

/-- The version of the program. -/
def version : String := "0.1.0"

/-- The text that gives the version. -/
def versionText : String := programName ++ ", version " ++ version ++ "\n"

/-- Rows in two columns. -/
def columns (rows : List (String × String)) : String :=
  let width := (rows.map fun r => r.1.length).foldl Nat.max 0
  String.join (rows.map fun r =>
    "  " ++ r.1 ++ String.ofList (List.replicate (width - r.1.length + 2) ' ') ++ r.2 ++ "\n")

/-- A switch as it is written. -/
def Switch.shown (s : Switch) : String :=
  (s.letter.elim "" fun c => String.ofList ['-', c] ++ ", ") ++ "--" ++ s.name ++
    s.placeholder.elim "" (" " ++ ·)

/-- The switches of a list in two columns. -/
def switchRows (switches : List Switch) : String :=
  "Options:\n" ++ columns (switches.map fun s => (s.shown, s.help))

/-- How to call a command. -/
def Command.usage (c : Command) : String :=
  "Usage: " ++ programName ++ " " ++ c.name ++ " [OPTIONS] " ++ c.argument ++ "\n"

/-- Help on a command. -/
def Command.help (c : Command) : String :=
  c.usage ++ "\n  " ++ c.summary ++ "\n\n" ++ switchRows c.switches

/-- How to call the program. -/
def usage : String := "Usage: " ++ programName ++ " [OPTIONS] COMMAND [ARGS]...\n"

/-- Help on the program. -/
def help : String :=
  usage ++ "\n  " ++ programName ++
    ": eligibility reasoning, complexity and conflicts over policy rules.\n\n" ++
    switchRows generalSwitches ++ "\nCommands:\n" ++
    columns (Command.all.map fun c => (c.name, c.summary))

end CommandLine
end Eligibility
