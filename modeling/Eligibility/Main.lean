import Eligibility.CommandLine
/-!
# The program

**Effects.**  The variables of the settings and the files that are named on the
command line are read before the outcome is determined; a text is printed or saved
afterwards.
-/

namespace Eligibility
namespace CommandLine

/-- The variables of the process that settings are read from, in capitals and in small letters. -/
def processVariables : IO Variables := do
  let names := Settings.names.map fun s => Settings.lead ++ s.1
  (names.map Text.upper ++ names).filterMapM fun n => do
    return (← IO.getEnv n).map fun v => (n, some v)

/-- The words that can name a file: those of a command line, and what follows an equals sign or a
letter in them. -/
def fileNames (words : List String) : List String :=
  ".env" :: words.flatMap fun w =>
    [w, (w.drop 2).toString, String.ofList ((w.toList.dropWhile (· ≠ '=')).drop 1)]

/-- A file with its text, if it can be read. -/
def readFile? (path : String) : IO (Option (String × String)) := do
  try
    return some (path, ← IO.FS.readFile path)
  catch _ => return none

/-- The place where the process was started. -/
def place (words : List String) : IO Place := do
  let process ← processVariables
  let files ← (fileNames words).filterMapM readFile?
  return ⟨process, fun path => files.lookup path⟩

end CommandLine
end Eligibility

open Eligibility.CommandLine in
/-- Runs a command line and ends with the number of its outcome. -/
def main (words : List String) : IO UInt32 := do
  let ending := run (← place words) words
  match ending.outcome with
  | .saved path text => IO.FS.writeFile path text
  | _ => pure ()
  IO.print ending.outcome.output
  IO.eprint ending.remarks
  return ending.outcome.exitCode.toUInt32
