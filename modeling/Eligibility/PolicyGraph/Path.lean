import Eligibility.PolicyGraph.Literal
/-!
# What must hold together

**Conjunction.**  A conjunction that is to hold, a disjunction that is to fail and
every negation pass their demand on to all their operands; the rules of a policy
are conjoined.

**Paths.**  A condition only matters where everything conjoined with it on the
way from its policy holds as well.  A path gives a condition, the literals that
are forced beside it, and the nodes on the way.

**Termination.**  A graph from a file may be circular.  The depth of a descent is
bounded by the number of nodes and truth values; going deeper is a fault.

**Functions.**
* `PolicyGraph.mustHold`: the literals that a node needs to take a truth value.
* `PolicyGraph.requirements`: the literals that a policy needs.
* `PolicyGraph.paths`: every condition of a policy with its context.
-/

namespace Eligibility

/-- A condition with the literals that must hold beside it and the nodes that lead to it. -/
structure Path where
  leaf : Literal
  context : List Literal
  trail : List Name

/-- All literals of a path. -/
def Path.literals (p : Path) : List Literal := p.leaf :: p.context

namespace PolicyGraph

/-- How deep a descent into a graph can go without repeating itself. -/
def depthBound (g : PolicyGraph) : Nat := 2 * g.nodes.length + 1

/-- Whether a node with an operator passes a demand on to all its operands. -/
def isConjunctive (o : Option Operator) (positive : Bool) : Bool :=
  o == some .not || (o == some .and) == positive

/-- Operands with the truth values that a demand gives them. -/
def demands (positive : Bool) (bs : List Branch) : List (Node × Bool) :=
  bs.map fun b => (b.node, positive != b.edge.isNegated)

/-- The literals that a node needs to take a truth value, within a depth. -/
def mustHoldTo (g : PolicyGraph) : Nat → Node × Bool → Except Fault (List Literal)
  | 0, _ => .error .unbounded
  | fuel + 1, (n, positive) =>
      if n.isLeaf then .ok [⟨n, positive⟩]
      else do
        let o ← n.operator?
        if !isConjunctive o positive then return []
        let bs ← g.ruleChildren n.id
        let parts ← (demands positive bs).mapM (mustHoldTo g fuel)
        return parts.flatten

/-- The literals that a node needs to take a truth value. -/
def mustHold (g : PolicyGraph) (n : Node) (positive : Bool) : Except Fault (List Literal) :=
  mustHoldTo g g.depthBound (n, positive)

/-- The rules of a policy, all of which are to hold. -/
def rootDemands (g : PolicyGraph) (policy : Name) : Except Fault (List (Node × Bool)) :=
  (g.policyRoots policy).map fun bs => bs.map fun b => (b.node, true)

/-- The literals that a policy needs. -/
def requirements (g : PolicyGraph) (policy : Name) : Except Fault (List Literal) := do
  let ds ← g.rootDemands policy
  let parts ← ds.mapM fun d => g.mustHold d.1 d.2
  return parts.flatten

/-- Conjoined demands, each with the literals that the others force beside a context. -/
def besideOthers (g : PolicyGraph) (context : List Literal) (ds : List (Node × Bool)) :
    Except Fault (List ((Node × Bool) × List Literal)) := do
  let forced ← ds.mapM fun d => g.mustHold d.1 d.2
  return ds.zipIdx.map fun d => (d.1, context ++ (forced.eraseIdx d.2).flatten)

/-- The paths from a node to the conditions below it, within a depth. -/
def descend (g : PolicyGraph) (trail : List Name) :
    Nat → (Node × Bool) × List Literal → Except Fault (List Path)
  | 0, _ => .error .unbounded
  | fuel + 1, ((n, positive), context) =>
      let trail := trail ++ [n.id]
      if n.isLeaf then .ok [⟨⟨n, positive⟩, context, trail⟩]
      else do
        let bs ← g.ruleChildren n.id
        let o ← n.operator?
        let below ←
          if isConjunctive o positive then besideOthers g context (demands positive bs)
          else .ok ((demands positive bs).map fun d => (d, context))
        let parts ← below.mapM (descend g trail fuel)
        return parts.flatten

/-- Every condition of a policy with its context. -/
def paths (g : PolicyGraph) (policy : Name) : Except Fault (List Path) := do
  let ds ← g.rootDemands policy
  let below ← besideOthers g [] ds
  let parts ← below.mapM (descend g [] g.depthBound)
  return parts.flatten

end PolicyGraph
end Eligibility
