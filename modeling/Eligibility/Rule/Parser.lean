import Eligibility.Json.Reader
import Eligibility.Rule.Record
import Eligibility.Rule.Token
import Eligibility.Text.Shown
/-!
# Reading rules back from text

**Input.**  A text and what to assume for rules without an annotation: a clause,
a confidence and the identifier of the whole rule, each given as JSON.  A rule below
another one has its identifier, a point and its place among its siblings.

**Grammar.**  `expr` is `AND(expr, …)`, `OR(expr, …)` or `NOT(expr, …)`, or a
variable, a comparison and a literal; either may be followed by an annotation.
Of two values for one key of an annotation the later counts.

**Refusals.**  A refusal gives its cause and a place in the text; a quoted text
whose escapes do not read is refused as such.  What is assumed is checked where a
rule makes use of it.

**Functions.**
* `Rule.parse`: the rule of a text.
-/

namespace Eligibility
open Schema
namespace Rule

/-- What to assume for rules without an annotation. -/
structure Defaults where
  clause : Json := .str ""
  confidence : Json := .float Number.one
  id : Json := .str "r"

/-- Why a text is not a rule. -/
inductive Complaint where
  | strangeCharacter (c : Char)
  | unexpectedEnd
  | expected (what found : String)
  | trailing (found : String)
  | noExpression
  | noVariable (found : String)
  | noComparison (found : String)
  | noLiteral (found : String)
  | noQuoted (found : String)
  | unknownKey (found : String)
  | misplacedVariable
  | noConfidence (found : String)
  | noText (key found : String)
  deriving DecidableEq

namespace Complaint
open Text (shown)

/-- The wording of a complaint, without its place. -/
def message : Complaint → String
  | strangeCharacter c => "Unexpected character " ++ shown (String.ofList [c])
  | unexpectedEnd => "Unexpected end of input"
  | expected what found => "Expected " ++ shown what ++ ", found " ++ shown found
  | trailing found => "Unexpected trailing " ++ shown found
  | noExpression => "Expected an expression"
  | noVariable found => "Expected a variable, found " ++ shown found
  | noComparison found => "Expected a comparison operator, found " ++ shown found
  | noLiteral found => "Expected a literal, found " ++ shown found
  | noQuoted found => "Expected a string, found " ++ shown found
  | unknownKey found => "Unknown annotation key " ++ shown found
  | misplacedVariable => "'var' is only valid on AND/OR/NOT"
  | noConfidence found => "Expected a number for confidence, found " ++ shown found
  | noText key found => "Expected a string for " ++ key ++ ", found " ++ shown found

end Complaint

/-- Why a text cannot be read as a rule. -/
inductive ParseFault where
  | refused (cause : Complaint) (position : Nat)
  | misread (cause : Json.Misread)
  | flawed (flaws : List Flaw)

namespace Parser

/-- A value read from tokens, and the tokens that follow it. -/
abbrev Step (α : Type) := Except ParseFault (α × List Token)

/-- The text of a token. -/
def shownText (t : Token) : String := String.ofList t.text

/-- A refusal at a token. -/
def refuse {α : Type} (t : Token) (c : String → Complaint) : Except ParseFault α :=
  .error (.refused (c (shownText t)) t.position)

/-- The next token; `stop` is the length of the text. -/
def next (stop : Nat) : List Token → Step Token
  | [] => .error (.refused .unexpectedEnd stop)
  | t :: ts => .ok (t, ts)

/-- Whether the next token is a given mark. -/
def atMark (c : Char) : List Token → Bool
  | [] => false
  | t :: _ => decide (t.text = [c]) && decide (t.kind = .mark)

/-- Passes over a token with a given text. -/
def expect (stop : Nat) (what : List Char) (ts : List Token) : Except ParseFault (List Token) :=
  match next stop ts with
  | .error e => .error e
  | .ok (t, r) =>
      if t.text = what ∧ t.kind ≠ .quoted then .ok r
      else refuse t (.expected (String.ofList what))

/-- The text that a quoted token stands for. -/
def unquoted (t : Token) : Except ParseFault String :=
  match Text.unquote t.text.tail with
  | .ok (s, _) => .ok (String.ofList s)
  | .error (q, n) => .error (.misread (Json.locate t.text (.quoted q, n)))

/-- The number that a token stands for. -/
def numberOf (t : Token) : Number := (Number.read? (Text.asciiDigits t.text)).getD (.nan .fresh)

section Literals

/-- A quoted text. -/
def quotedText (stop : Nat) (ts : List Token) : Step String :=
  match next stop ts with
  | .error e => .error e
  | .ok (t, r) =>
      if t.kind = .quoted then (unquoted t).map fun s => (s, r) else refuse t .noQuoted

/-- Further quoted texts, each behind a comma. -/
def moreTexts (stop : Nat) : Nat → List Token → Step (List String)
  | 0, ts => .ok ([], ts)
  | fuel + 1, ts =>
      if atMark ',' ts then
        match quotedText stop ts.tail with
        | .error e => .error e
        | .ok (s, r) => (moreTexts stop fuel r).map fun p => (s :: p.1, p.2)
      else .ok ([], ts)

/-- The quoted texts between brackets, behind the opening one. -/
def textList (stop : Nat) (ts : List Token) : Step (List String) :=
  if atMark ']' ts then .ok ([], ts.tail)
  else
    match quotedText stop ts with
    | .error e => .error e
    | .ok (s, r) =>
        match moreTexts stop r.length r with
        | .error e => .error e
        | .ok (ss, q) => (expect stop [']'] q).map fun u => (s :: ss, u)

/-- An operand. -/
def literal (stop : Nat) (ts : List Token) : Step Operand :=
  match next stop ts with
  | .error e => .error e
  | .ok (t, r) =>
      if t.kind = .number then .ok (.number (numberOf t), r)
      else if t.kind = .quoted then (unquoted t).map fun s => (.text s, r)
      else if t.kind = .word ∧ t.text = "true".toList then .ok (.flag true, r)
      else if t.kind = .word ∧ t.text = "false".toList then .ok (.flag false, r)
      else if t.text = ['['] then
        (textList stop r).map fun p => (.texts (TextSet.ofList p.1), p.2)
      else refuse t .noLiteral

end Literals

section Annotations

/-- What an annotation says; what it does not say is absent. -/
structure Annotation where
  id : Option String := none
  subject : Option String := none
  clause : Option String := none
  confidence : Option Number := none
  group : Option String := none

/-- An annotation with the value of a key set. -/
def Annotation.set (a : Annotation) (key value : String) : Annotation :=
  if key = "id" then { a with id := some value }
  else if key = "var" then { a with subject := some value }
  else if key = "clause" then { a with clause := some value }
  else { a with group := some value }

/-- The keys of annotations. -/
def keys : List String := ["id", "var", "clause", "confidence", "group"]

/-- The value of a key. -/
def value (stop : Nat) (key : String) (a : Annotation) (ts : List Token) : Step Annotation :=
  match next stop ts with
  | .error e => .error e
  | .ok (t, r) =>
      if key = "confidence" then
        if t.kind = .number then .ok ({ a with confidence := some (numberOf t) }, r)
        else refuse t .noConfidence
      else if t.kind = .quoted then (unquoted t).map fun s => (a.set key s, r)
      else refuse t (.noText key)

/-- A key with its value. -/
def pair (stop : Nat) (logical : Bool) (a : Annotation) (ts : List Token) : Step Annotation :=
  match next stop ts with
  | .error e => .error e
  | .ok (t, r) =>
      if t.kind ≠ .word ∨ ¬ shownText t ∈ keys then refuse t .unknownKey
      else if shownText t = "var" ∧ logical = false then refuse t fun _ => .misplacedVariable
      else
        match expect stop ['='] r with
        | .error e => .error e
        | .ok q => value stop (shownText t) a q

/-- The pairs of an annotation, behind its opening brace. -/
def pairs (stop : Nat) (logical : Bool) : Nat → Annotation → List Token → Step Annotation
  | 0, a, ts => .ok (a, ts)
  | fuel + 1, a, ts =>
      match pair stop logical a ts with
      | .error e => .error e
      | .ok (b, r) =>
          if atMark ',' r then pairs stop logical fuel b r.tail
          else (expect stop ['}'] r).map fun q => (b, q)

/-- An annotation, if one follows. -/
def annotation? (stop : Nat) (logical : Bool) (ts : List Token) : Step Annotation :=
  if atMark '{' ts then pairs stop logical (ts.length + 1) {} ts.tail else .ok ({}, ts)

end Annotations

section Expressions

/-- The head of a rule, given what was read, the defaults and the annotation. -/
def headOf (d : Defaults) (id : Json) (subject : String) (o : Operator) (v : Option Operand)
    (a : Annotation) : Checked Head :=
  let head (id clause : String) (confidence : Option Number) : Head :=
    ⟨id, Text.strip (a.subject.getD subject), o, v, clause, confidence, a.group⟩
  ((((identifier ((a.id.map Json.str).getD id)).under (.key "rule_id")).map head).ap
    ((identifier ((a.clause.map Json.str).getD d.clause)).under (.key "clause_reference"))).ap
    ((nullable Schema.number ((a.confidence.map Json.float).getD d.confidence)).under
      (.key "confidence"))

/-- A rule of a head and the rules below it, unless the head has flaws. -/
def built (head : Checked Head) (below : List Rule) : Except ParseFault Rule :=
  match head with
  | .ok h => .ok (node h below)
  | .flawed fs => .error (.flawed fs)

/-- A rule with the annotation that follows it, given the head and the rules below it. -/
def annotated (stop : Nat) (logical : Bool) (head : Annotation → Checked Head) (below : List Rule)
    (ts : List Token) : Step Rule :=
  match annotation? stop logical ts with
  | .error e => .error e
  | .ok (a, r) => (built (head a) below).map fun n => (n, r)

/-- The operators of the comparison signs. -/
def signs : List (List Char × Operator) := [
  (['=', '='], .eq), (['!', '='], .neq), (['<'], .lt), (['<', '='], .lte), (['>'], .gt),
  (['>', '='], .gte)]

/-- The operators of the logical words. -/
def logicalWords : List (List Char × Operator) := [
  ("AND".toList, .and), ("OR".toList, .or), ("NOT".toList, .not)]

/-- The operator of a word that begins a logical rule: a parenthesis must follow it. -/
def logicalStart? : List Token → Option Operator
  | t :: u :: _ =>
      if t.kind = .word ∧ u.text = ['('] then logicalWords.lookup t.text else none
  | _ => none

/-- A name without its back quotes, the doubled ones inside taken as one. -/
def unticked : List Char → List Char
  | '`' :: '`' :: r => '`' :: unticked r
  | c :: r => c :: unticked r
  | [] => []

/-- A variable. -/
def subject? (t : Token) : Option String :=
  if t.kind = .ticked then some (String.ofList (unticked (t.text.tail.dropLast)))
  else if t.kind = .word ∧ t.text ∉ words then some (shownText t)
  else none

/-- A comparison sign, or the words of a membership test. -/
def comparison (stop : Nat) (ts : List Token) : Step Operator :=
  match next stop ts with
  | .error e => .error e
  | .ok (t, r) =>
      match (if t.kind = .sign then signs.lookup t.text else none) with
      | some o => .ok (o, r)
      | none =>
          if t.kind = .word ∧ t.text = "in".toList then .ok (.isIn, r)
          else if t.kind = .word ∧ t.text = "not".toList then
            (expect stop "in".toList r).map fun q => (.notIn, q)
          else refuse t .noComparison

/-- A comparison of a variable with an operand, and its annotation. -/
def leaf (stop : Nat) (d : Defaults) (id : Json) (ts : List Token) : Step Rule :=
  match next stop ts with
  | .error e => .error e
  | .ok (t, r) =>
      match subject? t with
      | none => refuse t .noVariable
      | some name =>
          match comparison stop r with
          | .error e => .error e
          | .ok (o, q) =>
              match literal stop q with
              | .error e => .error e
              | .ok (v, u) => annotated stop false (headOf d id name o (some v)) [] u

/-- The identifier of the rule at a place below another one. -/
def childId (id : Json) (place : Nat) : Json :=
  .str (id.display ++ "." ++ String.ofList (Decimal.digitsOf place))

mutual

/-- An expression. -/
def expression (stop : Nat) (d : Defaults) : Nat → Json → List Token → Step Rule
  | 0, _, _ => .error (.refused .noExpression stop)
  | fuel + 1, id, ts =>
      if ts.isEmpty then .error (.refused .noExpression stop)
      else
        match logicalStart? ts with
        | none => leaf stop d id ts
        | some o =>
            match siblings stop d fuel id 0 (ts.drop 2) with
            | .error e => .error e
            | .ok (cs, r) =>
                match expect stop [')'] r with
                | .error e => .error e
                | .ok q =>
                    annotated stop true (headOf d id (Schema.lowerAscii o.name) o none) cs q

/-- One or more expressions separated by commas, the first at a given place. -/
def siblings (stop : Nat) (d : Defaults) : Nat → Json → Nat → List Token → Step (List Rule)
  | 0, _, _, _ => .error (.refused .noExpression stop)
  | fuel + 1, id, place, ts =>
      match expression stop d fuel (childId id place) ts with
      | .error e => .error e
      | .ok (r, q) =>
          if atMark ',' q then
            (siblings stop d fuel id (place + 1) q.tail).map fun p => (r :: p.1, p.2)
          else .ok ([r], q)

end

end Expressions

end Parser

/-- The rule of a sequence of characters. -/
def parseChars (d : Defaults) (cs : List Char) : Except ParseFault Rule :=
  match Token.split cs with
  | .error (position, c) => .error (.refused (.strangeCharacter c) position)
  | .ok ts =>
      match Parser.expression cs.length d (2 * ts.length + 1) d.id ts with
      | .error e => .error e
      | .ok (r, []) => .ok r
      | .ok (_, t :: _) => Parser.refuse t .trailing

/-- The rule of a text. -/
def parse (d : Defaults) (text : String) : Except ParseFault Rule := parseChars d text.toList

end Rule
end Eligibility
