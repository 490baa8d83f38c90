import Eligibility.Settings.Variables
import Eligibility.Text.Blank
/-!
# Files of variables

**Input.**  A text of bindings.  A binding is a name, with or without the word
`export` before it and quotes around it, and then an equals sign and a value, or
nothing.  A value stands between single or double quotes, where it may run over
several lines, or it ends with its line; what follows a number sign behind a blank
is a comment.  What is no binding is a fault, which is skipped up to the end of its
line and remarked upon.  A mark of the encoding at the head of the text is no part of it.

**References.**  In a value, `$` and a name in braces stand for the value of that
variable; a default may follow the name behind a colon and a hyphen.  The bindings
above come before the variables of the process.

**Functions.**
* `VariableFile.statements`: the statements of a text as they are written.
* `VariableFile.faultLines`: the lines where a statement is none.
* `VariableFile.read`: the variables of a text, their references resolved.
-/

namespace Eligibility
namespace VariableFile
open Text

section Lines

/-- Whether a character is blank and does not end a line. -/
def isLineBlank (c : Char) : Bool := isBlank c && c != '\n'

/-- Whether a text is at the end of a line. -/
def atLineEnd (cs : List Char) : Bool := cs.head?.all (· == '\n')

/-- What follows the line at the head of a text. -/
def nextLine (cs : List Char) : List Char := (cs.dropWhile (· ≠ '\n')).drop 1

/-- A text without the comment at its head. -/
def skipComment (cs : List Char) : List Char :=
  match cs.dropWhile isLineBlank with
  | '#' :: r => r.dropWhile (· ≠ '\n')
  | _ => cs

/-- What follows the line at the head of a text, if nothing but a comment is left of it. -/
def closeLine (cs : List Char) : Option (List Char) :=
  let rest := (skipComment cs).dropWhile isLineBlank
  if atLineEnd rest then some (rest.drop 1) else none

end Lines

section Names

/-- The mark of a text between single quotes. -/
def singleQuote : Char := Char.ofNat 39

/-- Whether a character can stand in a name without quotes. -/
def isNameChar (c : Char) : Bool := !(isBlank c || c == '=' || c == '#')

/-- A text without the word `export` at its head. -/
def skipExport (cs : List Char) : List Char :=
  if "export".toList.isPrefixOf cs && (cs.drop 6).head?.any isLineBlank then
    (cs.drop 6).dropWhile isLineBlank
  else cs

/-- The characters before a mark, unless there are none, and what follows the mark. -/
def takeBefore (mark : Char) (cs : List Char) : Option (List Char × List Char) :=
  let name := cs.takeWhile (· ≠ mark)
  match cs.dropWhile (· ≠ mark) with
  | [] => none
  | _ :: r => if name.isEmpty then none else some (name, r)

/-- The name at the head of a text, and what follows it; a comment has none. -/
def takeName (cs : List Char) : Option (Option (List Char) × List Char) :=
  match cs with
  | [] => none
  | c :: r =>
      if c = '#' then some (none, cs)
      else if c = singleQuote then (takeBefore singleQuote r).map fun p => (some p.1, p.2)
      else
        let name := cs.takeWhile isNameChar
        if name.isEmpty then none else some (some name, cs.dropWhile isNameChar)

end Names

section Values

/-- The characters up to a closing quote, and what follows it.  A backslash always takes the next
character along, be it a line feed. -/
def takeQuoted (mark : Char) : List Char → Option (List Char × List Char)
  | [] => none
  | [c] => if c = mark then some ([], []) else none
  | c :: d :: r =>
      if c = mark then some ([], d :: r)
      else if c = '\\' then (takeQuoted mark r).map fun p => (c :: d :: p.1, p.2)
      else (takeQuoted mark (d :: r)).map fun p => (c :: p.1, p.2)

/-- The characters that a letter behind a backslash stands for between double quotes. -/
def doubleEscapes : List (Char × Char) := [
  ('\\', '\\'), (singleQuote, singleQuote), ('"', '"'), ('a', Char.ofNat 7), ('b', Char.ofNat 8),
  ('f', Char.ofNat 12), ('n', '\n'), ('r', '\r'), ('t', '\t'), ('v', Char.ofNat 11)]

/-- The characters that a letter behind a backslash stands for between single quotes. -/
def singleEscapes : List (Char × Char) := [('\\', '\\'), (singleQuote, singleQuote)]

/-- A text with its escapes replaced; a backslash before any other letter stands for itself. -/
def unescape (escapes : List (Char × Char)) : List Char → List Char
  | [] => []
  | '\\' :: d :: r =>
      match escapes.lookup d with
      | some e => e :: unescape escapes r
      | none => '\\' :: unescape escapes (d :: r)
  | c :: r => c :: unescape escapes r

/-- A text up to the first number sign behind a blank. -/
def beforeComment : List Char → List Char
  | [] => []
  | c :: r =>
      if isBlank c && (r.dropWhile isBlank).head? == some '#' then [] else c :: beforeComment r

/-- The value at the head of a text, and what follows it; `spaced` says whether a blank stands
before it. -/
def takeValue (spaced : Bool) (cs : List Char) : Option (List Char × List Char) :=
  match cs with
  | [] => some ([], [])
  | c :: r =>
      if c = '"' then
        (takeQuoted '"' r).map fun p => (unescape doubleEscapes p.1, p.2)
      else if c = singleQuote then
        (takeQuoted singleQuote r).map fun p => (unescape singleEscapes p.1, p.2)
      else
        let line := cs.takeWhile (· ≠ '\n')
        some (if spaced && c == '#' then [] else stripRight (beforeComment line),
          cs.dropWhile (· ≠ '\n'))

end Values

section Statements

/-- What stands at a place where a binding is expected. -/
inductive Statement where
  | binding (name : List Char) (value : Option (List Char))
  | comment
  | fault (line : Nat)

/-- The value behind an equals sign, if there is one, and what follows it. -/
def takeAssigned (cs : List Char) : Option (Option (List Char) × List Char) :=
  match cs with
  | '=' :: r => (takeValue (r.head?.any isLineBlank) (r.dropWhile isLineBlank)).map fun p => (some p.1, p.2)
  | _ => some (none, cs)

/-- The statement at the head of a text, on a line with a number, and what follows it. -/
def takeStatement (line : Nat) (cs : List Char) : Statement × List Char :=
  let start := skipExport cs
  match takeName start with
  | none => (.fault line, nextLine start)
  | some (name, r) =>
      let behind := r.dropWhile isLineBlank
      match takeAssigned behind with
      | none => (.fault line, nextLine behind)
      | some (value, s) =>
          match closeLine s with
          | none => (.fault line, nextLine s)
          | some rest => (name.elim .comment fun n => .binding n value, rest)

/-- The statements of a text from a line on, at most a given number of them.  The line of a
statement is where the one before it has ended. -/
def statementsFrom (line : Nat) : Nat → List Char → List Statement
  | 0, _ => []
  | fuel + 1, cs =>
      match stripLeft cs with
      | [] => []
      | start =>
          let next := takeStatement line start
          next.1 :: statementsFrom (line + (cs.count '\n' - next.2.count '\n')) fuel next.2

/-- The mark of the encoding of a text. -/
def encodingMark : Char := Char.ofNat 0xfeff

/-- A text without the mark at its head. -/
def withoutMark (cs : List Char) : List Char :=
  if cs.head? = some encodingMark then cs.drop 1 else cs

/-- The statements of a text as they are written. -/
def statements (text : String) : List Statement :=
  let cs := withoutMark text.toList
  statementsFrom 1 (cs.length + 1) cs

/-- The lines of the faults of a text. -/
def faultLines (text : String) : List Nat :=
  (statements text).filterMap fun
    | .fault line => some line
    | _ => none

/-- The remark upon a fault. -/
def remark (line : Nat) : String :=
  "python-dotenv could not parse statement starting at line " ++
    String.ofList (Nat.toDigits 10 line) ++ "\n"

end Statements

section References

/-- A reference behind its opening brace: the name, the default, and what follows the reference. -/
def takeReference (cs : List Char) : Option (List Char × List Char × List Char) :=
  let isNamed (c : Char) : Bool := c != '}' && c != ':'
  match cs.dropWhile isNamed with
  | '}' :: r => some (cs.takeWhile isNamed, [], r)
  | ':' :: '-' :: r =>
      match r.dropWhile (· ≠ '}') with
      | [] => none
      | _ :: s => some (cs.takeWhile isNamed, r.takeWhile (· ≠ '}'), s)
  | _ => none

/-- What a name stands for: nothing, where the variable is only named. -/
def referred (process above : Variables) (name default : List Char) : List Char :=
  let key := String.ofList name
  match above.lookup key with
  | some v => (v.getD "").toList
  | none => ((process.valueSpelled? key).map String.toList).getD default

/-- A value with its references resolved, of which at most a given number is read. -/
def resolveWithin (process above : Variables) : Nat → List Char → List Char
  | 0, cs => cs
  | fuel + 1, cs =>
      match cs with
      | '$' :: '{' :: r =>
          match takeReference r with
          | some (name, default, s) =>
              referred process above name default ++ resolveWithin process above fuel s
          | none => '$' :: resolveWithin process above fuel ('{' :: r)
      | c :: r => c :: resolveWithin process above fuel r
      | [] => []

/-- A value with its references resolved. -/
def resolve (process above : Variables) (cs : List Char) : String :=
  String.ofList (resolveWithin process above (cs.length + 1) cs)

/-- Variables with one more statement, its references resolved. -/
def bind (process : Variables) (above : Variables) : Statement → Variables
  | .binding name value => above.assign (String.ofList name) (value.map (resolve process above))
  | _ => above

/-- The variables of a text, their references resolved. -/
def read (process : Variables) (text : String) : Variables :=
  (statements text).foldl (bind process) []

end References

end VariableFile
end Eligibility
