import Eligibility.Interval
import Eligibility.Operand
import Eligibility.Operator
/-!
# Constraints on one variable

**Reading.**  A constraint compares a variable with an operand.  On numbers it
is an interval, inequality being a hole in the line; on texts a finite set or
the complement of one; on truth values the set of allowed ones.

**Questions.**
* `satisfiedBy`: whether a given value meets the constraint.
* `jointly`: whether some value meets two constraints.
* `implies`: whether every value that meets the first meets the second.

Two constraints are compared only on one variable and one domain; otherwise they
can always hold together and neither implies the other.  An operator that does
not fit a number leaves no interval, and the question has no answer.
-/

namespace Eligibility

/-- A variable compared with an operand. -/
structure Constraint where
  subject : String
  operator : Operator
  value : Operand
  deriving DecidableEq

/-- Why a given value cannot be compared with a constraint. -/
inductive Mismatch where
  | notNumber (kind : String)
  | notFlag (kind : String)
  | notText (kind : String)
  | notTexts
  deriving DecidableEq

/-- The wording of a mismatch. -/
def Mismatch.message : Mismatch → String
  | notNumber k => "expected a number, got " ++ k
  | notFlag k => "expected true/false, got " ++ k
  | notText k => "expected a string, got " ++ k
  | notTexts => "expected a list of strings"

/-- The outcome of checking a given value against a constraint. -/
inductive Check where
  | answer (holds : Bool)
  | mismatch (cause : Mismatch)
  | outOfRange
  | noInterval
  deriving DecidableEq

namespace Constraint

/-- The domain of the variable. -/
def domain (c : Constraint) : ValueKind := c.value.kind.domain

/-- The complement, unless the operator has none. -/
def negated? (c : Constraint) : Option Constraint :=
  c.operator.negated?.map fun o => { c with operator := o }

/-- The text of a constraint. -/
def describe (c : Constraint) : String :=
  c.subject ++ " " ++ c.operator.symbol ++ " " ++ c.value.describe

/-- The interval of a comparison with a number, if it has one. -/
def intervalOf (o : Operator) (x : Number) : Option Interval :=
  match o with
  | .eq => some (Interval.point x)
  | .lt => some { high := x }
  | .lte => some { high := x, highClosed := true }
  | .gt => some { low := x }
  | .gte => some { low := x, lowClosed := true }
  | _ => none

/-- The interval of a constraint on a number, if it has one. -/
def interval (c : Constraint) : Option Interval :=
  match c.value with
  | .number x => intervalOf c.operator x
  | _ => none

/-- Whether a truth value is allowed. -/
def allowsFlag (o : Operator) (b v : Bool) : Bool := if o = .eq then v == b else v != b

/-- Whether the texts named are the excluded ones. -/
def excludes (o : Operator) : Bool := o == .neq || o == .notIn

section Values

/-- A number against a comparison with a number. -/
def checkNumber (o : Operator) (x : Number) (v : Number) : Check :=
  if o = .neq then .answer (!(v.same x))
  else
    match intervalOf o x with
    | some i => .answer (i.containsPoint v)
    | none => .noInterval

/-- An integer against a comparison with a number; only inequality sees all its digits. -/
def checkInt (o : Operator) (x : Number) (n : Int) : Check :=
  if o = .neq then .answer (!(x.sameInt n))
  else
    match intervalOf o x with
    | none => .noInterval
    | some i =>
        match Number.ofInt? n with
        | some v => .answer (i.containsPoint v)
        | none => .outOfRange

/-- A value given for a variable of numbers. -/
def checkNumeric (o : Operator) (x : Number) : Json → Check
  | .int n => checkInt o x n
  | .float v => checkNumber o x v
  | j => .mismatch (.notNumber j.kindName)

/-- A value given for a variable of truth values. -/
def checkFlag (o : Operator) (b : Bool) : Json → Check
  | .bool v => .answer (allowsFlag o b v)
  | j => .mismatch (.notFlag j.kindName)

/-- The texts of a list, if it holds nothing else. -/
def textsOf? : List Json → Option (List String)
  | [] => some []
  | .str s :: r => (textsOf? r).map (s :: ·)
  | _ :: _ => none

/-- A value given for a variable of texts: of a list one member must match, or none. -/
def checkText (complement : Bool) (named : TextSet) : Json → Check
  | .str s => .answer (named.contains s != complement)
  | .arr items =>
      match textsOf? items with
      | some ss => .answer (ss.any named.contains != complement)
      | none => .mismatch .notTexts
  | j => .mismatch (.notText j.kindName)

/-- Whether a given value meets the constraint. -/
def satisfiedBy (c : Constraint) (candidate : Json) : Check :=
  match c.value with
  | .number x => checkNumeric c.operator x candidate
  | .flag b => checkFlag c.operator b candidate
  | .text s => checkText (excludes c.operator) (TextSet.singleton s) candidate
  | .texts ss => checkText (excludes c.operator) ss candidate

end Values

section Pairs

/-- Whether two constraints are on one variable and one domain. -/
def comparable (a b : Constraint) : Bool := a.subject == b.subject && a.domain == b.domain

/-- A finite set of texts, or the complement of one. -/
structure TextRange where
  named : TextSet
  complement : Bool

/-- Whether some text lies in both ranges. -/
def TextRange.jointly (a b : TextRange) : Bool :=
  match a.complement, b.complement with
  | true, true => true
  | false, false => a.named.meets b.named
  | false, true => !(a.named.subset b.named)
  | true, false => !(b.named.subset a.named)

/-- Whether every text of the first range lies in the second. -/
def TextRange.implies (a b : TextRange) : Bool :=
  match a.complement, b.complement with
  | false, false => a.named.subset b.named
  | false, true => !(a.named.meets b.named)
  | true, true => b.named.subset a.named
  | true, false => false

/-- The range of a constraint on a text. -/
def textRange? (c : Constraint) : Option TextRange :=
  match c.value with
  | .text s => some ⟨TextSet.singleton s, excludes c.operator⟩
  | .texts ss => some ⟨ss, excludes c.operator⟩
  | _ => none

/-- Whether some number meets two comparisons with numbers. -/
def numbersJointly (o : Operator) (x : Number) (p : Operator) (y : Number) : Option Bool :=
  if o = .neq ∧ p = .neq then some true
  else if o = .neq then (intervalOf p y).map fun i => !(i.isPoint && i.low.same x)
  else if p = .neq then (intervalOf o x).map fun i => !(i.isPoint && i.low.same y)
  else
    match intervalOf o x, intervalOf p y with
    | some i, some j => some (i.overlaps j)
    | _, _ => none

/-- Whether every number that meets the first comparison meets the second. -/
def numbersImply (o : Operator) (x : Number) (p : Operator) (y : Number) : Option Bool :=
  if p = .neq then
    if o = .neq then some (x.same y) else (intervalOf o x).map fun i => !(i.containsPoint y)
  else if o = .neq then some false
  else
    match intervalOf o x, intervalOf p y with
    | some i, some j => some (j.contains i)
    | _, _ => none

/-- Whether some truth value meets two comparisons with truth values. -/
def flagsJointly (o : Operator) (a : Bool) (p : Operator) (b : Bool) : Bool :=
  [true, false].any fun v => allowsFlag o a v && allowsFlag p b v

/-- Whether every truth value that meets the first comparison meets the second. -/
def flagsImply (o : Operator) (a : Bool) (p : Operator) (b : Bool) : Bool :=
  [true, false].all fun v => !allowsFlag o a v || allowsFlag p b v

/-- Whether some value of the shared variable meets both constraints. -/
def jointly (a b : Constraint) : Option Bool :=
  if !comparable a b then some true
  else
    match a.value, b.value with
    | .number x, .number y => numbersJointly a.operator x b.operator y
    | .flag x, .flag y => some (flagsJointly a.operator x b.operator y)
    | _, _ =>
        match a.textRange?, b.textRange? with
        | some s, some t => some (s.jointly t)
        | _, _ => some true

/-- Whether every value that meets the first constraint meets the second. -/
def implies (a b : Constraint) : Option Bool :=
  if !comparable a b then some false
  else
    match a.value, b.value with
    | .number x, .number y => numbersImply a.operator x b.operator y
    | .flag x, .flag y => some (flagsImply a.operator x b.operator y)
    | _, _ =>
        match a.textRange?, b.textRange? with
        | some s, some t => some (s.implies t)
        | _, _ => some false

end Pairs

end Constraint
end Eligibility
