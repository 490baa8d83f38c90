import Eligibility.Rule
/-!
# Rules as text

**Form.**  `AND(age >= 18, OR(income < 50000, is_student == true))`: a logical
rule is its name and its children between parentheses, a comparison a variable, a
sign and an operand.  A variable that is not a plain identifier, or is a word of
the language, stands between back quotes, a back quote inside it being doubled.

**Annotations.**  A block between braces behind a rule gives its identifier, the
variable of a logical rule, its clause, its confidence and its group.

**Functions.**
* `Rule.print`: the text of a rule, with or without annotations.
-/

namespace Eligibility

namespace Rule

section Variables

/-- The words of the language. -/
def words : List (List Char) :=
  ["AND".toList, "OR".toList, "NOT".toList, "in".toList, "not".toList, "true".toList,
    "false".toList]

/-- Whether a character can begin an identifier. -/
def startsIdentifier (c : Char) : Bool := c.isAlpha || c == '_'

/-- Whether a character can stand inside an identifier. -/
def continuesIdentifier (c : Char) : Bool := c.isAlphanum || c == '_' || c == '.'

/-- Whether a text is a plain identifier. -/
def isIdentifier : List Char → Bool
  | [] => false
  | c :: r => startsIdentifier c && r.all continuesIdentifier

/-- A text with every back quote doubled. -/
def doubleTicks : List Char → List Char
  | [] => []
  | c :: r => if c = '`' then '`' :: '`' :: doubleTicks r else c :: doubleTicks r

/-- A variable in a rule. -/
def variableText (name : List Char) : List Char :=
  if isIdentifier name && !words.contains name then name
  else '`' :: (doubleTicks name ++ ['`'])

/-- A variable in a rule. -/
def formatVariable (name : String) : String := String.ofList (variableText name.toList)

end Variables

section Annotations

/-- A field of an annotation with a quoted text. -/
def quotedField (key : String) (value : String) : List Char :=
  key.toList ++ '=' :: Text.quoteChars value.toList

/-- The fields of the annotation of a head. -/
def annotationFields (h : Head) : List (List Char) :=
  [quotedField "id" h.id] ++
    (if h.operator.isLogical then [quotedField "var" h.subject] else []) ++
    [quotedField "clause" h.clause] ++
    (match h.confidence with
    | some x => ["confidence=".toList ++ x.brief]
    | none => []) ++
    (match h.group with
    | some g => [quotedField "group" g]
    | none => [])

/-- Texts one after the other, each but the first behind a comma. -/
def commaList : List (List Char) → List Char
  | [] => []
  | [x] => x
  | x :: r => x ++ ',' :: ' ' :: commaList r

/-- The annotation of a head. -/
def annotation (h : Head) : List Char := '{' :: (commaList (annotationFields h) ++ ['}'])

end Annotations

section Printing

/-- What follows a rule: a blank and its annotation, or nothing. -/
def suffix (annotate : Bool) (h : Head) : List Char :=
  if annotate then ' ' :: annotation h else []

/-- A comparison with an operand. -/
def comparisonText (h : Head) (v : Operand) : List Char :=
  variableText h.subject.toList ++ ' ' :: (h.operator.symbol.toList ++ ' ' :: v.chars)

mutual

/-- The text of a rule, unless a comparison in it has no operand. -/
def printChars (annotate : Bool) : Rule → Option (List Char)
  | node h cs =>
      if h.operator.isLogical then
        (printAll annotate cs).map fun ts =>
          h.operator.name.toList ++ '(' :: (commaList ts ++ ')' :: suffix annotate h)
      else h.value.map fun v => comparisonText h v ++ suffix annotate h

/-- The texts of several rules. -/
def printAll (annotate : Bool) : List Rule → Option (List (List Char))
  | [] => some []
  | r :: rs =>
      match printChars annotate r, printAll annotate rs with
      | some t, some ts => some (t :: ts)
      | _, _ => none

end

/-- The text of a rule, unless a comparison in it has no operand. -/
def print (annotate : Bool) (r : Rule) : Option String := (printChars annotate r).map String.ofList

end Printing

end Rule
end Eligibility
