import Eligibility.Operand
import Eligibility.Operator
/-!
# Rules: trees of logical expressions

**Trees.**  A rule is a head and a list of children.  Below a comparison there
should be nothing, below `AND` and `OR` at least one rule and below `NOT`
exactly one; the tree type does not ask for that, so that a reader can take in a
malformed rule and say what is wrong with it.

**Functions.**
* `Rule.heads`: the heads of a tree, a rule before its children.
* `Rule.leafHeads`, `Rule.depth`: the comparisons, and the number of levels.
* `Rule.same`: equality, with numbers compared by value.
* `Rule.equivalent`: the same logical structure.
-/

namespace Eligibility

/-- What a rule says apart from its children. -/
structure Head where
  id : String := ""
  subject : String := ""
  operator : Operator
  value : Option Operand := none
  clause : String := ""
  confidence : Option Number := none
  group : Option String := none
  deriving DecidableEq

/-- A rule: a head and the rules below it. -/
inductive Rule where
  | node (head : Head) (children : List Rule)

namespace Head

/-- Equality of two optional values by an equality of values. -/
def sameOption {α : Type} (same : α → α → Bool) : Option α → Option α → Bool
  | none, none => true
  | some a, some b => same a b
  | _, _ => false

/-- Equality of heads, with numbers compared by value. -/
def same (a b : Head) : Bool :=
  decide (a.id = b.id) && decide (a.subject = b.subject) && decide (a.operator = b.operator) &&
    sameOption Operand.same a.value b.value && decide (a.clause = b.clause) &&
    sameOption Number.same a.confidence b.confidence && decide (a.group = b.group)

/-- Equality of what two heads say about their variables: logical rules say nothing. -/
def equivalent (a b : Head) : Bool :=
  decide (a.operator = b.operator) &&
    (a.operator.isLogical ||
      (decide (a.subject = b.subject) && sameOption Operand.same a.value b.value))

end Head

namespace Rule

/-- The head of a rule. -/
def head : Rule → Head
  | node h _ => h

/-- The rules below a rule. -/
def children : Rule → List Rule
  | node _ cs => cs

@[simp] theorem head_node (h : Head) (cs : List Rule) : (node h cs).head = h := rfl

@[simp] theorem children_node (h : Head) (cs : List Rule) : (node h cs).children = cs := rfl

/-- The identifier of a rule. -/
def id (r : Rule) : String := r.head.id

/-- The operator of a rule. -/
def operator (r : Rule) : Operator := r.head.operator

section Traversal

mutual

/-- The heads of a tree, a rule before its children. -/
def heads : Rule → List Head
  | node h cs => h :: headsOf cs

/-- The heads of several trees, tree after tree. -/
def headsOf : List Rule → List Head
  | [] => []
  | r :: rs => heads r ++ headsOf rs

end

/-- The heads of the comparisons of a tree. -/
def leafHeads (r : Rule) : List Head := r.heads.filter fun h => h.operator.isComparison

mutual

/-- The number of levels of a tree. -/
def depth : Rule → Nat
  | node _ cs => depthOf cs + 1

/-- The number of levels of the deepest tree. -/
def depthOf : List Rule → Nat
  | [] => 0
  | r :: rs => Nat.max (depth r) (depthOf rs)

end

theorem mem_heads_self (r : Rule) : r.head ∈ r.heads := by
  cases r with
  | node h cs => simp [heads]

theorem headsOf_append (rs ss : List Rule) : headsOf (rs ++ ss) = headsOf rs ++ headsOf ss := by
  induction rs with
  | nil => simp [headsOf]
  | cons r rs ih => simp [headsOf, ih]

theorem headsOf_eq_flatMap (rs : List Rule) : headsOf rs = rs.flatMap heads := by
  induction rs with
  | nil => simp [headsOf]
  | cons r rs ih => simp [headsOf, ih]

end Traversal

section Equality

mutual

/-- Equality of trees, with numbers compared by value. -/
def same : Rule → Rule → Bool
  | node h cs, node k ds => h.same k && sameAll cs ds

/-- Equality of lists of trees. -/
def sameAll : List Rule → List Rule → Bool
  | [], [] => true
  | r :: rs, s :: ss => same r s && sameAll rs ss
  | _, _ => false

end

mutual

/-- The same logical structure: operators, variables, operands and the order of children. -/
def equivalent : Rule → Rule → Bool
  | node h cs, node k ds => h.equivalent k && equivalentAll cs ds

/-- The same logical structure of lists of trees. -/
def equivalentAll : List Rule → List Rule → Bool
  | [], [] => true
  | r :: rs, s :: ss => equivalent r s && equivalentAll rs ss
  | _, _ => false

end

end Equality

end Rule
end Eligibility
