import Eligibility.Json
import Eligibility.Number.Decimal
import Eligibility.Text.Quoted
import Eligibility.Text.Shown
/-!
# JSON values as text

**Forms.**
* `compact`: on one line, a blank after each comma and colon.
* `canonical`: the compact form with the fields of every object in rising order of their keys.
* `indented`: one item a line, two blanks for each level.
* `display`: a value inside a message; a text stands as it is, everything else as `shown`.
-/

namespace Eligibility
namespace Json
open Text

/-- The text of a number in JSON, with names for what has no digits. -/
def numberText : Number → List Char
  | .nan _ => "NaN".toList
  | .posInf => "Infinity".toList
  | .negInf => "-Infinity".toList
  | x => x.written

/-- The text of a scalar. -/
def scalarText : Json → List Char
  | bool true => "true".toList
  | bool false => "false".toList
  | int n => Decimal.ofInt n
  | float x => numberText x
  | str s => quoteChars s.toList
  | _ => "null".toList

section Compact

mutual

/-- The characters of a value on one line. -/
def compactChars : Json → List Char
  | arr xs => '[' :: (compactItems true xs ++ [']'])
  | obj fs => '{' :: (compactFields true fs ++ ['}'])
  | j => scalarText j

/-- The items of a list, each but the first behind a comma. -/
def compactItems (first : Bool) : List Json → List Char
  | [] => []
  | x :: r => (if first then [] else [',', ' ']) ++ (compactChars x ++ compactItems false r)

/-- The fields of an object, each but the first behind a comma. -/
def compactFields (first : Bool) : List (String × Json) → List Char
  | [] => []
  | (k, v) :: r =>
      (if first then [] else [',', ' ']) ++
        (quoteChars k.toList ++ ':' :: ' ' :: (compactChars v ++ compactFields false r))

end

/-- A value on one line. -/
def compact (j : Json) : String := String.ofList (compactChars j)

/-- Fields in rising order of their keys. -/
def sortFields (fs : List (String × Json)) : List (String × Json) :=
  fs.mergeSort fun a b => decide (a.1 ≤ b.1)

mutual

/-- A value with the fields of all its objects in rising order. -/
def sorted : Json → Json
  | arr xs => arr (sortedItems xs)
  | obj fs => obj (sortFields (sortedFields fs))
  | j => j

/-- The sorted forms of the items of a list. -/
def sortedItems : List Json → List Json
  | [] => []
  | x :: r => sorted x :: sortedItems r

/-- Fields with sorted values. -/
def sortedFields : List (String × Json) → List (String × Json)
  | [] => []
  | (k, v) :: r => (k, sorted v) :: sortedFields r

end

/-- The one-line form that does not depend on the order of fields. -/
def canonical (j : Json) : String := compact j.sorted

end Compact

section Indented

/-- A line end and the indentation of a level. -/
def newline (level : Nat) : List Char := '\n' :: List.replicate (2 * level) ' '

mutual

/-- The characters of a value with one item a line. -/
def indentedChars (level : Nat) : Json → List Char
  | arr [] => ['[', ']']
  | obj [] => ['{', '}']
  | arr (x :: xs) =>
      '[' :: (newline (level + 1) ++ indentedChars (level + 1) x ++
        indentedItems (level + 1) xs ++ newline level ++ [']'])
  | obj ((k, v) :: fs) =>
      '{' :: (newline (level + 1) ++ quoteChars k.toList ++ [':', ' '] ++
        indentedChars (level + 1) v ++ indentedFields (level + 1) fs ++ newline level ++ ['}'])
  | j => scalarText j

/-- The items behind the first one. -/
def indentedItems (level : Nat) : List Json → List Char
  | [] => []
  | x :: r => ',' :: (newline level ++ indentedChars level x ++ indentedItems level r)

/-- The fields behind the first one. -/
def indentedFields (level : Nat) : List (String × Json) → List Char
  | [] => []
  | (k, v) :: r =>
      ',' :: (newline level ++ quoteChars k.toList ++ [':', ' '] ++ indentedChars level v ++
        indentedFields level r)

end

/-- A value with one item a line. -/
def indented (j : Json) : String := String.ofList (indentedChars 0 j)

end Indented

section Messages

mutual

/-- A value as messages show it. -/
def shown : Json → String
  | null => "None"
  | bool true => "True"
  | bool false => "False"
  | int n => String.ofList (Decimal.ofInt n)
  | float x => String.ofList x.written
  | str s => Text.shown s
  | arr xs => "[" ++ shownItems true xs ++ "]"
  | obj fs => "\x7b" ++ shownFields true fs ++ "\x7d"

/-- The items of a list, each but the first behind a comma. -/
def shownItems (first : Bool) : List Json → String
  | [] => ""
  | x :: r => (if first then "" else ", ") ++ shown x ++ shownItems false r

/-- The fields of an object, each but the first behind a comma. -/
def shownFields (first : Bool) : List (String × Json) → String
  | [] => ""
  | (k, v) :: r =>
      (if first then "" else ", ") ++ Text.shown k ++ ": " ++ shown v ++ shownFields false r

end

/-- A value inside a message. -/
def display : Json → String
  | str s => s
  | j => shown j

@[simp] theorem display_str (s : String) : display (str s) = s := rfl

end Messages

end Json
end Eligibility
