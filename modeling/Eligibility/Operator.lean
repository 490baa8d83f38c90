/-!
# Operators of rules

**Kinds.**  Eight operators compare a variable with an operand: equality, order
and membership, each with its complement.  Three combine rules.

**Results.**
* `negated?_negated?`: the complement of the complement is the operator itself.
* `negated?_isSome`: exactly the comparisons have a complement.
-/

namespace Eligibility

/-- An operator of a rule. -/
inductive Operator where
  | eq
  | neq
  | lt
  | lte
  | gt
  | gte
  | isIn
  | notIn
  | and
  | or
  | not
  deriving DecidableEq

namespace Operator

/-- The operators in the order of their declaration. -/
def all : List Operator := [eq, neq, lt, lte, gt, gte, isIn, notIn, and, or, not]

/-- The name of an operator. -/
def name : Operator → String
  | eq => "EQ"
  | neq => "NEQ"
  | lt => "LT"
  | lte => "LTE"
  | gt => "GT"
  | gte => "GTE"
  | isIn => "IN"
  | notIn => "NOT_IN"
  | and => "AND"
  | or => "OR"
  | not => "NOT"

/-- The operator of a name. -/
def ofName? (s : String) : Option Operator := all.find? fun o => o.name == s

/-- Whether the operator combines rules. -/
def isLogical : Operator → Bool
  | and => true
  | or => true
  | not => true
  | _ => false

/-- Whether the operator compares a variable with an operand. -/
def isComparison (o : Operator) : Bool := !o.isLogical

/-- Whether the operator compares by order. -/
def isOrdering : Operator → Bool
  | lt => true
  | lte => true
  | gt => true
  | gte => true
  | _ => false

/-- Whether the operator asks for membership. -/
def isMembership : Operator → Bool
  | isIn => true
  | notIn => true
  | _ => false

/-- The complement of a comparison. -/
def negated? : Operator → Option Operator
  | eq => some neq
  | neq => some eq
  | lt => some gte
  | gte => some lt
  | lte => some gt
  | gt => some lte
  | isIn => some notIn
  | notIn => some isIn
  | _ => none

/-- The sign of an operator in rendered rules. -/
def symbol : Operator → String
  | eq => "=="
  | neq => "!="
  | lt => "<"
  | lte => "<="
  | gt => ">"
  | gte => ">="
  | isIn => "in"
  | notIn => "not in"
  | o => o.name

theorem negated?_isSome (o : Operator) : o.negated?.isSome = o.isComparison := by cases o <;> rfl

theorem negated?_negated? {o p : Operator} (h : o.negated? = some p) : p.negated? = some o := by
  cases o <;> cases p <;> simp_all [negated?]

theorem ofName?_name (o : Operator) : ofName? o.name = some o := by cases o <;> decide

end Operator
end Eligibility
