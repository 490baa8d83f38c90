import Eligibility.PolicyGraph.Multigraph
/-!
# Circular dependencies

**Cycles.**  A cycle goes along dependencies from node to node, through no node
twice, and back to where it began.  It is given from its first node in the order
of names.

**Search.**  Nodes from which no dependency leads on, or to which none leads, are
on no cycle and are taken away until none is left.  From each remaining node all
ways through later nodes are followed.

**Functions.**
* `Digraph.cycles`: the cycles of a graph on numbers, each once.
* `PolicyGraph.cycles`: the cycles of the dependencies of a graph.
-/

namespace Eligibility

/-- A directed graph on numbers. -/
structure Digraph where
  vertices : List Nat
  arcs : List (Nat × Nat)

namespace Digraph

/-- The vertices that an arc leads to from a vertex, each once. -/
def successors (d : Digraph) (v : Nat) : List Nat :=
  ((d.arcs.filter fun a => a.1 = v).map (·.2)).eraseDups

/-- Whether a vertex has an arc that leads on and one that leads to it. -/
def isThrough (d : Digraph) (v : Nat) : Bool :=
  (d.arcs.any fun a => a.1 = v) && d.arcs.any fun a => a.2 = v

/-- A graph without the vertices that no way leads through. -/
def strip (d : Digraph) : Digraph :=
  let vs := d.vertices.filter d.isThrough
  ⟨vs, d.arcs.filter fun a => vs.contains a.1 && vs.contains a.2⟩

/-- A graph stripped until nothing more is taken away, at most `fuel` times. -/
def core : Nat → Digraph → Digraph
  | 0, d => d
  | fuel + 1, d =>
      let s := d.strip
      if s.vertices.length = d.vertices.length then d else core fuel s

/-- The ways from the end of a way back to its start through later vertices, within a length. -/
def waysBack (d : Digraph) (start : Nat) : Nat → List Nat → Nat → List (List Nat)
  | 0, _, _ => []
  | fuel + 1, way, v =>
      (d.successors v).flatMap fun w =>
        if w = start then [way]
        else if w < start ∨ w ∈ way then []
        else waysBack d start fuel (way ++ [w]) w

/-- The cycles of a graph, each from its smallest vertex. -/
def cycles (d : Digraph) : List (List Nat) :=
  let c := core d.vertices.length d
  c.vertices.flatMap fun v => waysBack c v (c.vertices.length + 1) [v] v

end Digraph

namespace PolicyGraph

/-- The dependencies of a graph between the positions of its nodes. -/
def dependencyGraph (g : PolicyGraph) : Digraph where
  vertices := List.range g.nodes.length
  arcs := g.dependencies.filterMap fun a =>
    match g.position? a.source, g.position? a.target with
    | some s, some t => some (s, t)
    | _, _ => none

/-- A list turned so that it begins with a given item. -/
def turnTo (first : Name) (ns : List Name) : List Name :=
  (ns.dropWhile fun n => !n.alike first) ++ ns.takeWhile fun n => !n.alike first

/-- A cycle given from its first node in the order of names. -/
def arrangeCycle (ns : List Name) : Except Fault (List Name) :=
  match ns with
  | [] => .ok []
  | n :: r =>
      match Name.least? n r with
      | some first => .ok (turnTo first ns)
      | none => .error .wrongType

/-- The cycles of the dependencies of a graph. -/
def cycles (g : PolicyGraph) : Except Fault (List (List Name)) :=
  let ids := g.nodes.map Node.id
  g.dependencyGraph.cycles.mapM fun vs => arrangeCycle (vs.filterMap fun v => ids[v]?)

end PolicyGraph
end Eligibility
