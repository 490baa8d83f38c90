import Eligibility.Conflict.Scope
/-!
# Scopes that are asked for again

**Memory.**  A resolver looks up the links of a policy once and remembers them.  Its memory
grows with every policy that comes first in a pair; asking for the same pair in the other
order remembers the links of the other policy.

**Functions.**
* `Resolver.linkedBy`, `Resolver.check`, `Resolver.inScope`: answers, and the resolver after them.
* `Resolver.after`: a resolver that was asked before.
-/

namespace Eligibility

/-- A graph and the links that were looked up in it. -/
structure Resolver where
  graph : PolicyGraph
  known : List (Name × PolicyGraph.Links) := []

/-- What a resolver is asked: by which relations two policies are linked, or whether they share a
scope. -/
inductive Inquiry where
  | links (first second : Name)
  | scope (entities : Bool) (first second : Name)

namespace Resolver

/-- The links of a policy, remembered or looked up. -/
def links (r : Resolver) (policy : Name) : Except Fault PolicyGraph.Links × Resolver :=
  if !Name.isUsable policy then (.error .wrongType, r)
  else
    match r.known.find? fun k => k.1.alike policy with
    | some k => (.ok k.2, r)
    | none =>
        match r.graph.linkedPolicies policy with
        | .ok ls => (.ok ls, { r with known := (policy, ls) :: r.known })
        | .error f => (.error f, r)

/-- The relations that link two policies. -/
def linkedBy (r : Resolver) (first second : Name) : Except Fault (List Relation) × Resolver :=
  let found := r.links first
  (found.1 >>= fun ls =>
    if Name.isUsable second then .ok (ls.members second) else .error .wrongType, found.2)

/-- Nothing, unless policies that are linked by some relations do not share a scope. -/
def judge (r : Resolver) (entities : Bool) (first second : Name) (links : List Relation) :
    Except Fault Unit := do
  if links.isEmpty then throw (.unlinked first second (← Fault.sorted [first, second]))
  if entities then
    let a ← r.graph.entityOf first
    let b ← r.graph.entityOf second
    if !a.same b then
      throw (.differentEntities first a second b (← Fault.sorted [first, second]))

/-- Nothing, unless two policies do not share a scope; entities may be left out of account. -/
def check (r : Resolver) (entities : Bool) (first second : Name) : Except Fault Unit × Resolver :=
  if first.same second then (.ok (), r)
  else
    let found := r.linkedBy first second
    (found.1 >>= r.judge entities first second, found.2)

/-- Whether two policies share a scope. -/
def inScope (r : Resolver) (entities : Bool) (first second : Name) :
    Except Fault Bool × Resolver :=
  let checked := r.check entities first second
  (match checked.1 with
    | .ok _ => .ok true
    | .error f => if PolicyGraph.isScopeFault f then .ok false else .error f, checked.2)

/-- A resolver after it was asked. -/
def ask (r : Resolver) : Inquiry → Resolver
  | .links first second => (r.linkedBy first second).2
  | .scope entities first second => (r.inScope entities first second).2

/-- A resolver after it was asked several times. -/
def after (r : Resolver) (qs : List Inquiry) : Resolver := qs.foldl ask r

end Resolver
end Eligibility
