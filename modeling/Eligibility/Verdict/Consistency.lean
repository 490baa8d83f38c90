import Eligibility.PolicyGraph.Path
/-!
# Contradictions within a policy

**Rule.**  A policy contradicts itself when a condition and a literal that must
hold beside it are on one variable and no value meets both.  The first such pair
is the fault; of the two the one whose clause and rule come first is named first.

**Functions.**
* `PolicyGraph.contradiction?`: the first pair that cannot hold together.
* `PolicyGraph.precheck`: the fault of such a pair.
-/

namespace Eligibility

namespace Literal

/-- Whether one literal comes before another one, by clause and then by rule. -/
def before (a b : Literal) : Except Fault Bool :=
  if !a.clause.alike b.clause then Fault.ordered a.clause b.clause
  else if !a.rule.alike b.rule then Fault.ordered a.rule b.rule
  else .ok false

/-- Two literals in their order. -/
def ordered (a b : Literal) : Except Fault (Literal × Literal) :=
  (before b a).map fun swap => if swap then (b, a) else (a, b)

/-- A literal as a contradiction cites it. -/
def cited (l : Literal) : Except Fault Cited :=
  l.describe.map fun text => ⟨text, l.rule, l.clause⟩

end Literal

namespace Path

/-- The first literal of a list that cannot hold together with a condition on its variable. -/
def clash? (c : Condition) : List Literal → Except Fault (Option Literal)
  | [] => .ok none
  | l :: r =>
      if !l.subject.same c.subject then clash? c r
      else do
        let d ← l.condition
        if ← c.jointly d then clash? c r else return some l

/-- The first pair on a path that cannot hold together. -/
def contradiction? (p : Path) : Except Fault (Option (Literal × Literal)) := do
  let c ← p.leaf.condition
  return (← clash? c p.context).map fun l => (p.leaf, l)

end Path

namespace PolicyGraph

/-- The first pair on several paths that cannot hold together. -/
def firstContradiction? : List Path → Except Fault (Option (Literal × Literal))
  | [] => .ok none
  | p :: r => do
      match ← p.contradiction? with
      | some pair => return some pair
      | none => firstContradiction? r

/-- The first pair of a policy that cannot hold together. -/
def contradiction? (g : PolicyGraph) (policy : Name) : Except Fault (Option (Literal × Literal)) :=
  (g.paths policy).bind firstContradiction?

/-- The fault of two literals that cannot hold together. -/
def contradictionFault (policy : Name) (leaf other : Literal) : Except Fault Fault := do
  let (a, b) ← Literal.ordered leaf other
  let first ← a.cited
  let second ← b.cited
  return .contradiction policy first second leaf.subject

/-- Nothing, unless a policy contradicts itself. -/
def precheck (g : PolicyGraph) (policy : Name) : Except Fault Unit := do
  match ← g.contradiction? policy with
  | none => return ()
  | some (leaf, other) => throw (← contradictionFault policy leaf other)

end PolicyGraph
end Eligibility
