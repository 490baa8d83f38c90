import Eligibility.PolicyGraph
/-!
# Policies that are evaluated together

**Rule.**  Two policies share a scope when they are the same, or when an edge in
either direction links them and they apply to the same kind of entity.

**Functions.**
* `PolicyGraph.linkedBy`: the relations that link two policies.
* `PolicyGraph.checkScope`: nothing, or why two policies do not share a scope.
-/

namespace Eligibility
namespace PolicyGraph

/-- The relations that link two policies. -/
def linkedBy (g : PolicyGraph) (first second : Name) : Except Fault (List Relation) :=
  if !Name.isUsable first || !Name.isUsable second then .error .wrongType
  else (g.linkedPolicies first).map fun ls => ls.members second

/-- The entity that a policy applies to. -/
def entityOf (g : PolicyGraph) (policy : Name) : Except Fault Name :=
  match g.policyNode? policy with
  | some n => .ok (n.get "entity_type")
  | none => .error .noAttribute

/-- Nothing, unless two policies do not share a scope; entities may be left out of account. -/
def checkScope (g : PolicyGraph) (entities : Bool) (first second : Name) : Except Fault Unit := do
  if first.same second then return ()
  let links ← g.linkedBy first second
  if links.isEmpty then throw (.unlinked first second (← Fault.sorted [first, second]))
  if entities then
    let a ← g.entityOf first
    let b ← g.entityOf second
    if !a.same b then
      throw (.differentEntities first a second b (← Fault.sorted [first, second]))

/-- Whether a fault says that policies do not share a scope. -/
def isScopeFault : Fault → Bool
  | .unlinked _ _ _ => true
  | .differentEntities _ _ _ _ _ => true
  | _ => false

/-- Whether two policies share a scope. -/
def inScope (g : PolicyGraph) (entities : Bool) (first second : Name) : Except Fault Bool :=
  match g.checkScope entities first second with
  | .ok _ => .ok true
  | .error f => if isScopeFault f then .ok false else .error f

end PolicyGraph
end Eligibility
