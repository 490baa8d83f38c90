import Eligibility.Constraint
import Eligibility.PolicyGraph
/-!
# Conditions that must hold or fail

**Conditions.**  A condition is what a node says: a variable, an operator and an
operand.  In a compiled graph it is a constraint; in a graph from a file the
operator or the operand may be absent, and then some questions have no answer.

**Literals.**  A literal is a condition node together with the truth value it is
to have.

**Functions.**
* `Condition.describe`, `Condition.jointly`, `Condition.implies`: questions about conditions.
* `Literal.condition`: the condition that holds when the literal does.
-/

namespace Eligibility

/-- A variable, an operator and an operand, as far as they are there. -/
structure Condition where
  subject : Name
  operator : Option Operator
  value : Option Operand

namespace Condition

/-- The condition of a constraint. -/
def ofConstraint (c : Constraint) : Condition := ⟨.str c.subject, some c.operator, some c.value⟩

/-- The constraint of a condition whose variable is not looked at; without an operator it is read
as one that is no comparison. -/
def constraint (c : Condition) (v : Operand) : Constraint := ⟨"", c.operator.getD .and, v⟩

/-- The text of a condition. -/
def describe (c : Condition) : Except Fault String :=
  match c.operator, c.value with
  | some o, some v => .ok (c.subject.display ++ " " ++ o.symbol ++ " " ++ v.describe)
  | _, _ => .error .noAttribute

/-- The interval of a condition on a number, if it has one. -/
def interval (c : Condition) : Option Interval :=
  match c.operator, c.value with
  | some o, some (.number x) => Constraint.intervalOf o x
  | _, _ => none

/-- An answer that may be absent. -/
def answer : Option Bool → Except Fault Bool
  | some b => .ok b
  | none => .error .noAttribute

/-- Whether some value of the shared variable meets both conditions. -/
def jointly (a b : Condition) : Except Fault Bool :=
  if !a.subject.same b.subject then .ok true
  else
    match a.value, b.value with
    | some v, some w => answer (Constraint.jointly (a.constraint v) (b.constraint w))
    | _, _ => .error .noAttribute

/-- Whether every value that meets the first condition meets the second. -/
def implies (a b : Condition) : Except Fault Bool :=
  if !a.subject.same b.subject then .ok false
  else
    match a.value, b.value with
    | some v, some w => answer (Constraint.implies (a.constraint v) (b.constraint w))
    | _, _ => .error .noAttribute

theorem describe_ofConstraint (c : Constraint) :
    (ofConstraint c).describe = .ok c.describe := rfl

end Condition

/-- A condition node and the truth value it is to have. -/
structure Literal where
  node : Node
  positive : Bool

namespace Literal

/-- The operator of a literal, if its node has one. -/
def operator? (l : Literal) : Except Fault (Option Operator) :=
  match l.node.operator? with
  | .error f => .error f
  | .ok o =>
      if l.positive then .ok o
      else
        match o with
        | none => .error .noAttribute
        | some o =>
            match o.negated? with
            | some p => .ok (some p)
            | none => .error (.badValue (.noComplement o))

/-- The condition that holds when the literal does. -/
def condition (l : Literal) : Except Fault Condition :=
  l.operator?.map fun o => ⟨l.node.subject, o, l.node.value?⟩

/-- The text of a literal. -/
def describe (l : Literal) : Except Fault String := l.condition.bind Condition.describe

/-- The variable of a literal. -/
def subject (l : Literal) : Name := l.node.subject

/-- The rule of a literal. -/
def rule (l : Literal) : Name := l.node.rule

/-- The clause that a literal cites. -/
def clause (l : Literal) : Name := l.node.citedClause

end Literal
end Eligibility
