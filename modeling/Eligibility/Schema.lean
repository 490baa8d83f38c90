import Eligibility.Json.Mapping
import Eligibility.Number.Reading
/-!
# Reading typed values out of JSON

**Input.**  A JSON value and what its reader expects of it.

**Flaws.**  A reader collects every flaw it finds, in the order of the fields
and depth first; a flaw says where it is and what is wrong.  Only a value
without flaws is read.

**Leniency.**  A number may be given as an integer, a truth value or a text, a
truth value as a number or one of a few words, an integer as a whole number or a
text.  A text is never made out of anything else.

**Results.**
* `map_ok`, `ap_ok`, `ap_error_left`: how readings combine.
* `inputEntries_ofFields`: inputs under texts are read as the fields of an object.
-/

namespace Eligibility

namespace Schema

/-- A hop on the way to a flaw. -/
inductive Hop where
  | key (name : String)
  | index (position : Nat)
  deriving DecidableEq

/-- The text of a hop. -/
def Hop.text : Hop → String
  | key k => k
  | index n => String.ofList (Decimal.digitsOf n)

/-- What can be wrong with a value. -/
inductive Problem where
  | missing
  | notText
  | notNumber
  | unreadableNumber
  | notFlag
  | unreadableFlag
  | notInteger
  | unreadableInteger
  | tooLarge
  | fractional
  | notFinite
  | notList
  | notSequence
  | notSet
  | notMapping
  | notRecord (name : String)
  | tooNested
  | noSource
  | belowBound (bound : String)
  | aboveBound (bound : String)
  | emptyText
  | notChoice (names : List String)
  | notLiteral (names : List String)
  | unknownTag (found : String)
  | noTag
  | rejected (reason : String)
  deriving DecidableEq

namespace Problem

/-- A text between single quotes. -/
def inQuotes (s : String) : String := "'" ++ s ++ "'"

/-- Names in quotes, separated by commas and a last "or". -/
def alternatives : List String → String
  | [] => ""
  | [s] => inQuotes s
  | [s, t] => inQuotes s ++ " or " ++ inQuotes t
  | s :: r => inQuotes s ++ ", " ++ alternatives r

/-- The name of a problem. -/
def code : Problem → String
  | missing => "missing"
  | notText => "string_type"
  | notNumber => "float_type"
  | unreadableNumber => "float_parsing"
  | notFlag => "bool_type"
  | unreadableFlag => "bool_parsing"
  | notInteger => "int_type"
  | unreadableInteger => "int_parsing"
  | tooLarge => "int_parsing_size"
  | fractional => "int_from_float"
  | notFinite => "finite_number"
  | notList => "list_type"
  | notSequence => "tuple_type"
  | notSet => "frozen_set_type"
  | notMapping => "dict_type"
  | notRecord _ => "model_type"
  | tooNested => "recursion_loop"
  | noSource => "model_attributes_type"
  | belowBound _ => "greater_than_equal"
  | aboveBound _ => "less_than_equal"
  | emptyText => "string_too_short"
  | notChoice _ => "enum"
  | notLiteral _ => "literal_error"
  | unknownTag _ => "union_tag_invalid"
  | noTag => "union_tag_not_found"
  | rejected _ => "value_error"

/-- The wording of a problem. -/
def message : Problem → String
  | missing => "Field required"
  | notText => "Input should be a valid string"
  | notNumber => "Input should be a valid number"
  | unreadableNumber => "Input should be a valid number, unable to parse string as a number"
  | notFlag => "Input should be a valid boolean"
  | unreadableFlag => "Input should be a valid boolean, unable to interpret input"
  | notInteger => "Input should be a valid integer"
  | unreadableInteger => "Input should be a valid integer, unable to parse string as an integer"
  | tooLarge => "Unable to parse input string as an integer, exceeded maximum size"
  | fractional => "Input should be a valid integer, got a number with a fractional part"
  | notFinite => "Input should be a finite number"
  | notList => "Input should be a valid list"
  | notSequence => "Input should be a valid tuple"
  | notSet => "Input should be a valid frozenset"
  | notMapping => "Input should be a valid dictionary"
  | notRecord name => "Input should be a valid dictionary or instance of " ++ name
  | tooNested => "Recursion error - cyclic reference detected"
  | noSource => "Input should be a valid dictionary or object to extract fields from"
  | belowBound b => "Input should be greater than or equal to " ++ b
  | aboveBound b => "Input should be less than or equal to " ++ b
  | emptyText => "String should have at least 1 character"
  | notChoice names => "Input should be " ++ alternatives names
  | notLiteral names => "Input should be " ++ alternatives names
  | unknownTag t =>
      "Input tag '" ++ t ++ "' found using 'kind' does not match any of the expected tags: " ++
        "'numeric', 'string', 'boolean', 'string_set'"
  | noTag => "Unable to extract tag using discriminator 'kind'"
  | rejected reason => "Value error, " ++ reason

end Problem

/-- A problem and the way to it. -/
structure Flaw where
  path : List Hop
  problem : Problem
  deriving DecidableEq

namespace Flaw

/-- The way to a flaw in one text. -/
def location (f : Flaw) : String := String.intercalate "." (f.path.map Hop.text)

/-- A flaw as it is listed among the details of a refusal. -/
def toJson (f : Flaw) : Json :=
  .obj [("loc", .str f.location), ("message", .str f.problem.message), ("type", .str f.problem.code)]

end Flaw

/-- A value, or the flaws that keep it from being read. -/
inductive Checked (α : Type) where
  | ok (value : α)
  | flawed (flaws : List Flaw)

namespace Checked

variable {α β : Type}

/-- A reading with its value changed. -/
def map (f : α → β) : Checked α → Checked β
  | ok a => ok (f a)
  | flawed fs => flawed fs

/-- Two readings side by side; the flaws of both are kept. -/
def ap (f : Checked (α → β)) (x : Checked α) : Checked β :=
  match f, x with
  | ok g, ok a => ok (g a)
  | ok _, flawed fs => flawed fs
  | flawed fs, ok _ => flawed fs
  | flawed fs, flawed gs => flawed (fs ++ gs)

/-- A reading that depends on the value of another one. -/
def bind (x : Checked α) (f : α → Checked β) : Checked β :=
  match x with
  | ok a => f a
  | flawed fs => flawed fs

/-- A single flaw at the value itself. -/
def fail (p : Problem) : Checked α := flawed [⟨[], p⟩]

/-- A reading one hop further down. -/
def under (s : Hop) : Checked α → Checked α
  | ok a => ok a
  | flawed fs => flawed (fs.map fun f => { f with path := s :: f.path })

/-- The value of a reading without flaws. -/
def value? : Checked α → Option α
  | ok a => some a
  | flawed _ => none

/-- A reading as a result. -/
def toExcept : Checked α → Except (List Flaw) α
  | ok a => .ok a
  | flawed fs => .error fs

@[simp] theorem map_ok (f : α → β) (a : α) : map f (ok a) = ok (f a) := rfl

@[simp] theorem ap_ok (f : α → β) (a : α) : ap (ok f) (ok a) = ok (f a) := rfl

@[simp] theorem ap_error_left (fs : List Flaw) (a : α) :
    ap (flawed fs : Checked (α → β)) (ok a) = flawed fs := rfl

@[simp] theorem bind_ok (a : α) (f : α → Checked β) : bind (ok a) f = f a := rfl

@[simp] theorem under_ok (s : Hop) (a : α) : under s (ok a) = ok a := rfl

end Checked

/-- A reader of values of a type. -/
abbrev Reader (α : Type) := Json → Checked α

section Scalars

/-- A text. -/
def text : Reader String
  | .str s => .ok s
  | _ => .fail .notText

/-- A text that is not empty. -/
def nonEmptyText : Reader String
  | .str s => if s = "" then .fail .emptyText else .ok s
  | _ => .fail .notText

/-- A number. -/
def number : Reader Number
  | .float x => .ok x
  | .int n =>
      match Number.ofInt? n with
      | some x => .ok x
      | none => .fail .notNumber
  | .bool b => .ok (if b then Number.one else Number.zero)
  | .str s =>
      match Number.read? (Text.stripMargins s.toList) with
      | some x => .ok x
      | none =>
          match (if Number.underscoresInside s.toList then
              Number.read? (s.toList.filter (· ≠ '_')) else none) with
          | some x => .ok x
          | none => .fail .unreadableNumber
  | _ => .fail .notNumber

/-- A number between two bounds, both included, that are written as given. -/
def numberWithin (low high : Nat) : Reader Number := fun j =>
  (number j).bind fun x =>
    if !(x.le (.finite high)) then .fail (.aboveBound (String.ofList (Decimal.digitsOf high)))
    else if !(Number.le (.finite low) x) then
      .fail (.belowBound (String.ofList (Decimal.digitsOf low)))
    else .ok x

/-- The words for a truth value. -/
def flagWords : List (String × Bool) := [
  ("0", false), ("f", false), ("n", false), ("no", false), ("off", false), ("false", false),
  ("1", true), ("t", true), ("y", true), ("yes", true), ("on", true), ("true", true)]

/-- A text with its ASCII letters in lower case. -/
def lowerAscii (s : String) : String := String.ofList (s.toList.map Char.toLower)

/-- Whether a rational lies strictly between the ends of the range of 64-bit integers. -/
def isInWordRange (q : Rat) : Bool :=
  decide (-(9223372036854775808 : Rat) < q) && decide (q < (9223372036854775808 : Rat))

/-- Whether an integer fits into 64 bits. -/
def isWord (n : Int) : Bool :=
  decide (-(9223372036854775808 : Int) ≤ n) && decide (n < (9223372036854775808 : Int))

/-- A truth value. -/
def flag : Reader Bool
  | .bool b => .ok b
  | .str s =>
      match flagWords.lookup (lowerAscii s) with
      | some b => .ok b
      | none => .fail .unreadableFlag
  | .int n =>
      if n = 0 then .ok false
      else if n = 1 then .ok true
      else if isWord n then .fail .unreadableFlag
      else .fail .notFlag
  | .float x =>
      match x.value? with
      | none => .fail .notFlag
      | some q =>
          if q = 0 then .ok false
          else if q = 1 then .ok true
          else if q.den = 1 && isInWordRange q then .fail .unreadableFlag
          else .fail .notFlag
  | _ => .fail .notFlag

/-- What a text of digits is after the zeros at its head; `last` is the zero or underscore just
passed, which stands for the number when nothing follows and before a point. -/
def afterZeros (last : Char) : List Char → Option (List Char)
  | [] => some [last]
  | c :: r =>
      if c = '0' ∨ c = '_' then afterZeros c r
      else if c.isDigit ∨ c = '-' then some (c :: r)
      else if c = '.' then some (last :: c :: r)
      else none

/-- A text of digits without the zeros at its head; a minus keeps them. -/
def withoutZeros : List Char → Option (List Char)
  | [] => none
  | c :: r =>
      if c = '0' then afterZeros c r
      else if c.isDigit ∨ c = '-' then some (c :: r)
      else none

/-- A text of digits without a fraction of zeros, of which there is at least one. -/
def withoutFraction (cs : List Char) : List Char :=
  let zeros := (cs.dropWhile (· ≠ '.')).tail
  if !zeros.isEmpty && zeros.all (· == '0') then cs.takeWhile (· ≠ '.') else cs

/-- The most digits that are read as an integer. -/
def integerLength : Nat := 4300

/-- The integer of a sign and digits, the first of which is a zero only if it is alone. -/
def plainInteger? (cs : List Char) : Option Int :=
  let negative := cs.head? == some '-'
  let ds := if negative then cs.tail else cs
  if ds.isEmpty || !ds.all Char.isDigit || (ds.head? == some '0' && ds.length != 1) ||
      decide (integerLength < ds.length) then none
  else some (if negative then -(Number.digitsValue ds : Int) else Number.digitsValue ds)

/-- A text of digits in its plain form: without zeros at its head, a fraction of zeros and
underscores within it. -/
def plainDigits? (cs : List Char) : Option (List Char) :=
  (withoutZeros cs).map fun ds =>
    let whole := withoutFraction ds
    if Number.underscoresInside whole then whole.filter (· ≠ '_') else whole

/-- The integer written by a text, with blanks around it and a sign of either kind. -/
def integerText? (s : String) : Option Int :=
  let t := Text.stripMargins s.toList
  if t.head? == some '+' && t.tail.head? == some '-' then none
  else if t.head? == some '+' then (plainDigits? t.tail).bind plainInteger?
  else if t.head? == some '-' then (plainDigits? t.tail).bind fun ds => plainInteger? ('-' :: ds)
  else (plainDigits? t).bind plainInteger?

/-- Whether a text begins with more digits, behind a minus or not, than are read. -/
def isTooLong (s : String) : Bool :=
  let cs := s.toList
  let ds := (if cs.head? == some '-' then cs.tail else cs).takeWhile Char.isDigit
  ds.head? != some '0' && decide (integerLength < ds.length)

/-- An integer. -/
def integer : Reader Int
  | .int n => .ok n
  | .bool b => .ok (if b then 1 else 0)
  | .float x =>
      match x.value? with
      | none => .fail .notFinite
      | some q =>
          if q.den ≠ 1 then .fail .fractional
          else if isInWordRange q then .ok q.num
          else .fail .tooLarge
  | .str s =>
      if isTooLong s then .fail .tooLarge
      else
        match integerText? s with
        | some n => .ok n
        | none => .fail .unreadableInteger
  | _ => .fail .notInteger

/-- An integer that is not below a bound. -/
def integerFrom (low : Int) : Reader Int := fun j =>
  (integer j).bind fun n =>
    if n < low then .fail (.belowBound (String.ofList (Decimal.ofInt low))) else .ok n

/-- One of the named values of a type. -/
def choice {α : Type} (all : List α) (name : α → String) : Reader α
  | .str s =>
      match all.find? fun a => name a == s with
      | some a => .ok a
      | none => .fail (.notChoice (all.map name))
  | _ => .fail (.notChoice (all.map name))

/-- Null, or a value. -/
def nullable {α : Type} (read : Reader α) : Reader (Option α)
  | .null => .ok none
  | j => (read j).map some

/-- The value as it is. -/
def raw : Reader Json := fun j => .ok j

end Scalars

section Collections

variable {α : Type}

/-- The items of a list from a position on. -/
def itemsFrom (read : Reader α) : Nat → List Json → Checked (List α)
  | _, [] => .ok []
  | n, j :: r => (((read j).under (.index n)).map List.cons).ap (itemsFrom read (n + 1) r)

/-- A list, where the reader names what else was found by a problem of its own. -/
def listOr (p : Problem) (read : Reader α) : Reader (List α)
  | .arr xs => itemsFrom read 0 xs
  | _ => .fail p

/-- A list. -/
def list (read : Reader α) : Reader (List α) := listOr .notList read

/-- A list of fixed order that is not changed after reading. -/
def sequence (read : Reader α) : Reader (List α) := listOr .notSequence read

/-- The values of fields by their keys. -/
def entries (read : Reader α) : List (String × Json) → Checked (List (String × α))
  | [] => .ok []
  | (k, v) :: r => (((read v).under (.key k)).map fun a => List.cons (k, a)).ap (entries read r)

/-- A mapping from texts. -/
def mapping (read : Reader α) : Reader (List (String × α))
  | .obj fs => entries read fs
  | _ => .fail .notMapping

end Collections

section Records

variable {α β : Type}

/-- The value of a field that must be there. -/
def required (k : String) (read : Reader α) (fs : List (String × Json)) : Checked α :=
  match Json.lookup k fs with
  | some v => (read v).under (.key k)
  | none => .flawed [⟨[.key k], .missing⟩]

/-- The value of a field, or a default where it is absent. -/
def optional (k : String) (default : α) (read : Reader α) (fs : List (String × Json)) : Checked α :=
  match Json.lookup k fs with
  | some v => (read v).under (.key k)
  | none => .ok default

/-- A record read from the fields of an object. -/
def record (name : String) (read : List (String × Json) → Checked α) : Reader α
  | .obj fs => read fs
  | _ => .fail (.notRecord name)

end Records

section Inputs

/-- The flaws of a list that should hold texts only. -/
def textItemFlaws : Nat → List Json → List Flaw
  | _, [] => []
  | n, .str _ :: r => textItemFlaws (n + 1) r
  | n, _ :: r => ⟨[.key "list[str]", .index n], .notText⟩ :: textItemFlaws (n + 1) r

/-- The flaws of a value that is none of the kinds an input can have. -/
def inputFlaws (listFlaws : List Flaw) : List Flaw :=
  [⟨[.key "bool"], .notFlag⟩, ⟨[.key "int"], .notInteger⟩, ⟨[.key "float"], .notNumber⟩,
    ⟨[.key "str"], .notText⟩] ++ listFlaws

/-- An input: a truth value, a number, a text or a list of texts, taken as it is. -/
def input : Reader Json
  | .null => .flawed (inputFlaws [⟨[.key "list[str]"], .notList⟩])
  | .obj _ => .flawed (inputFlaws [⟨[.key "list[str]"], .notList⟩])
  | .arr xs =>
      match textItemFlaws 0 xs with
      | [] => .ok (.arr xs)
      | fs => .flawed (inputFlaws fs)
  | j => .ok j

/-- Inputs by the names of their variables. -/
def inputs : Reader (List (String × Json)) := mapping input

/-- A name as a hop: a truth value counts as one or zero. -/
def nameHop : Name → Hop
  | .bool b => .key (if b then "1" else "0")
  | n => .key n.display

/-- The text that an input stands under. -/
def inputName : Reader String := fun n => (text n).under (.key "[key]")

/-- Inputs by the names of their variables, which have to be texts. -/
def inputEntries : Entries Json → Checked (List (String × Json))
  | [] => .ok []
  | (n, v) :: r =>
      ((((inputName n).under (nameHop n)).map fun k v => List.cons (k, v)).ap
        ((input v).under (nameHop n))).ap (inputEntries r)

theorem inputEntries_ofFields (fs : List (String × Json)) :
    inputEntries (Entries.ofFields fs) = inputs (.obj fs) := by
  simp only [inputs, mapping]
  induction fs with
  | nil => rfl
  | cons f r ih =>
      obtain ⟨k, v⟩ := f
      simp only [Entries.ofFields, List.map_cons] at ih ⊢
      simp only [inputEntries, entries, inputName, text, nameHop, Json.display_str, ih]
      cases input v <;> rfl

end Inputs

end Schema
end Eligibility
