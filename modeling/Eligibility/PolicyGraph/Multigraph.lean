import Eligibility.PolicyGraph
/-!
# Policy graphs as plain multigraphs

**Arcs.**  An arc joins two nodes under a key, which is the identifier of its
edge.  Edges with the same ends and the same identifier are one arc, and the last
of them says what its relation is.  An edge without an identifier gets the
smallest free number from the count of parallel arcs on.

**Order.**  Arcs are listed by their sources in the order of the nodes, then by their
targets and by their keys as these first appear.

**Functions.**
* `PolicyGraph.arcs`: the arcs of a graph.
* `PolicyGraph.dependencies`: those that make one node depend on another.
-/

namespace Eligibility

/-- An arc of a multigraph. -/
structure Arc where
  source : Name
  target : Name
  key : Name
  relation : Relation
  negated : Bool

namespace Arc

/-- Whether a key is taken by one of several arcs. -/
def isTaken (arcs : List Arc) (k : Nat) : Bool := arcs.any fun a => a.key.alike (Json.nat k)

/-- The smallest number from `k` on that is no key, looking at `fuel` numbers. -/
def freeKey (arcs : List Arc) : Nat → Nat → Nat
  | 0, k => k
  | fuel + 1, k => if isTaken arcs k then freeKey arcs fuel (k + 1) else k

/-- The key of an edge beside parallel arcs. -/
def keyOf (beside : List Arc) (e : Edge) : Name :=
  match e.id with
  | .null => Json.nat (freeKey beside beside.length beside.length)
  | id => id

/-- Parallel arcs with one more, or with the relation of the one that has its key. -/
def insert (a : Arc) : List Arc → List Arc
  | [] => [a]
  | b :: r =>
      if b.key.alike a.key then { b with relation := a.relation, negated := a.negated } :: r
      else b :: insert a r

/-- The arcs of edges from one node to another one. -/
def ofParallel (source target : Name) (edges : List Edge) : List Arc :=
  edges.foldl (fun arcs e =>
    insert ⟨source, target, keyOf arcs e, e.relation, e.isNegated⟩ arcs) []

end Arc

namespace PolicyGraph

/-- The arcs that leave a node. -/
def arcsFrom (g : PolicyGraph) (n : Node) : List Arc :=
  (Grouping.ofList (fun e => some e.target) (g.index.outgoing.members n.id)).flatMap fun p =>
    Arc.ofParallel n.id p.1 p.2

/-- The arcs of a graph. -/
def arcs (g : PolicyGraph) : List Arc := g.nodes.flatMap g.arcsFrom

/-- The arcs that make one node depend on another. -/
def dependencies (g : PolicyGraph) : List Arc := g.arcs.filter fun a => a.relation.isDependency

end PolicyGraph
end Eligibility
