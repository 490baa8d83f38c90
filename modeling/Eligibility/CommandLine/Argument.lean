/-!
# Arguments of a command line

**Input.**  The words of a command line, and the switches that may stand among them.

**Switches.**  A switch is given by its name behind two hyphens, or by its letter
behind one.  The value of a switch is the next word, whatever it looks like; it may
also stand in the same word, behind an equals sign after a name and immediately after
a letter.  Two hyphens alone end the switches.  When a switch comes more than once its
last value counts.

**Functions.**
* `Words.ofList`: words told apart into switches and arguments.
-/

namespace Eligibility
namespace CommandLine

/-- A switch that a command takes. -/
structure Switch where
  name : String
  letter : Option Char := none
  placeholder : Option String := none
  help : String
  deriving DecidableEq

/-- Why a command line is not understood. -/
inductive Misuse where
  | unknownSwitch (word : String)
  | valueMissing (word : String)
  | valueUnexpected (name : String)
  | commandMissing
  | unknownCommand (name : String)
  | argumentMissing (name : String)
  | switchMissing (name : String)
  | extraArguments (words : List String)
  | noSuchFile (path : String)
  | noSuchPass (name : String)
  deriving DecidableEq

/-- The wording of a misuse. -/
def Misuse.message : Misuse → String
  | unknownSwitch w => "No such option: " ++ w
  | valueMissing w => "Option '" ++ w ++ "' requires an argument."
  | valueUnexpected n => "Option '--" ++ n ++ "' does not take a value."
  | commandMissing => "Missing command."
  | unknownCommand n => "No such command '" ++ n ++ "'."
  | argumentMissing n => "Missing argument '" ++ n ++ "'."
  | switchMissing n => "Missing option '--" ++ n ++ "'."
  | extraArguments ws => "Got unexpected extra arguments (" ++ String.intercalate " " ws ++ ")"
  | noSuchFile p => "File '" ++ p ++ "' does not exist."
  | noSuchPass n => "'" ++ n ++ "' is not a pass."

section Reading

/-- What a word says on its own. -/
inductive Role where
  | argument
  | flag (s : Switch)
  | complete (s : Switch) (value : String)
  | incomplete (s : Switch)
  | bad (cause : Misuse)

/-- The role of a word that begins with two hyphens, which are left out. -/
def roleOfName (switches : List Switch) (cs : List Char) : Role :=
  let name := String.ofList (cs.takeWhile (· ≠ '='))
  match switches.find? fun s => s.name = name, cs.dropWhile (· ≠ '=') with
  | none, _ => .bad (.unknownSwitch ("--" ++ name))
  | some s, [] => if s.placeholder.isSome then .incomplete s else .flag s
  | some s, _ :: value =>
      if s.placeholder.isSome then .complete s (String.ofList value)
      else .bad (.valueUnexpected name)

/-- The role of a word that begins with one hyphen and a letter. -/
def roleOfLetter (switches : List Switch) (c : Char) (rest : List Char) : Role :=
  match switches.find? fun s => s.letter = some c with
  | none => .bad (.unknownSwitch (String.ofList ['-', c]))
  | some s => if rest.isEmpty then .incomplete s else .complete s (String.ofList rest)

/-- The role of a word. -/
def roleOf (switches : List Switch) (word : String) : Role :=
  match word.toList with
  | '-' :: '-' :: cs => roleOfName switches cs
  | '-' :: c :: rest => roleOfLetter switches c rest
  | _ => .argument

/-- The words of a command line: the switches with their values, and the arguments. -/
structure Words where
  given : List (String × String) := []
  arguments : List String := []
  deriving DecidableEq

namespace Words

/-- Words with a switch before them. -/
def give (s : Switch) (value : String) (ws : Words) : Words :=
  { ws with given := (s.name, value) :: ws.given }

/-- Words with an argument before them. -/
def argue (word : String) (ws : Words) : Words := { ws with arguments := word :: ws.arguments }

/-- Words told apart into switches and arguments; where they are not mixed, the first argument
ends the switches. -/
def ofList (switches : List Switch) (mixed : Bool) : List String → Except Misuse Words
  | [] => .ok {}
  | w :: r =>
      if w = "--" then .ok { arguments := r }
      else
        match roleOf switches w with
        | .bad cause => .error cause
        | .argument =>
            if mixed then (ofList switches mixed r).map (argue w)
            else .ok { arguments := w :: r }
        | .flag s => (ofList switches mixed r).map (give s "")
        | .complete s value => (ofList switches mixed r).map (give s value)
        | .incomplete s =>
            match r with
            | [] => .error (.valueMissing w)
            | value :: r => (ofList switches mixed r).map (give s value)

/-- Whether a switch is given. -/
def has (ws : Words) (name : String) : Bool := ws.given.any fun p => p.1 = name

/-- The values of a switch in order. -/
def values (ws : Words) (name : String) : List String :=
  (ws.given.filter fun p => p.1 = name).map (·.2)

/-- The last value of a switch. -/
def value? (ws : Words) (name : String) : Option String := (ws.values name).getLast?

end Words
end Reading

end CommandLine
end Eligibility
