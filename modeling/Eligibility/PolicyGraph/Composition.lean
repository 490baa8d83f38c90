import Eligibility.Json.Printer
import Eligibility.PolicyGraph.Compilation
/-!
# Composing policy graphs

**Nodes.**  Nodes with one identifier become one.  A policy takes the place of a
node that only stands for it; any other two must agree in everything.

**Edges.**  Edges with the same ends, relation and properties become one, and all
edges are numbered anew.

**Functions.**
* `PolicyGraph.compose`: the graph of several graphs, or the node they disagree on.
-/

namespace Eligibility
namespace PolicyGraph

/-- The nodes collected so far with one more, which comes from a graph at a position. -/
def absorb (position : Nat) (n : Node) : List Node → Except Fault (List Node)
  | [] => .ok [n]
  | m :: r =>
      if !m.id.alike n.id then (absorb position n r).map (m :: ·)
      else if m.isExternal && !n.isExternal then .ok (n :: r)
      else if n.isExternal || m.alike n then .ok (m :: r)
      else .error (.conflictingNode n.id position)

/-- The nodes collected so far with those of a graph at a position. -/
def absorbAll (position : Nat) (acc : List Node) : List Node → Except Fault (List Node)
  | [] => .ok acc
  | n :: r =>
      match absorb position n acc with
      | .error f => .error f
      | .ok acc => absorbAll position acc r

/-- The nodes collected so far with those of graphs from a position on. -/
def composeNodes (position : Nat) (acc : List Node) : List PolicyGraph → Except Fault (List Node)
  | [] => .ok acc
  | g :: gs =>
      match absorbAll position acc g.nodes with
      | .error f => .error f
      | .ok acc => composeNodes (position + 1) acc gs

/-- The text of the properties of an edge, in rising order of their names if they have one. -/
def tieText (e : Edge) : Except Fault String :=
  (Fault.sorted (e.properties.map (·.1))).map fun names =>
    Json.compact (.obj (names.map fun n =>
      (Name.key n, ((e.properties.valueOf? n).getD .null).sorted)))

/-- An edge with the text of its properties. -/
structure Tie where
  edge : Edge
  text : String

/-- The ties of edges. -/
def tiesOf : List Edge → Except Fault (List Tie)
  | [] => .ok []
  | e :: r => do
      let text ← tieText e
      let rest ← tiesOf r
      return ⟨e, text⟩ :: rest

/-- Whether two edges agree in their ends, their relation and their properties. -/
def Tie.agrees (a b : Tie) : Bool :=
  a.edge.source.alike b.edge.source && a.edge.target.alike b.edge.target &&
    decide (a.edge.relation = b.edge.relation) && decide (a.text = b.text)

/-- Edges in order, without those that agree with one seen before. -/
def firstTies (seen : List Tie) : List Tie → List Edge
  | [] => []
  | t :: r => if seen.any t.agrees then firstTies seen r else t.edge :: firstTies (t :: seen) r

/-- Edges numbered in order, the first one after `n` others. -/
def renumber (n : Nat) : List Edge → List Edge
  | [] => []
  | e :: r => { e with id := Edge.numbered n } :: renumber (n + 1) r

/-- The edges of several graphs. -/
def composeEdges (gs : List PolicyGraph) : Except Fault (List Edge) :=
  (tiesOf (gs.flatMap PolicyGraph.edges)).map fun ties => renumber 0 (firstTies [] ties)

/-- The metadata of a composed graph. -/
def composedMetadata (gs : List PolicyGraph) (nodes : List Node) (edges : List Edge) :
    List (String × Json) := [
  ("composed_from", .arr (gs.map fun g => (g.metadata.get? "fingerprint").getD .null)),
  ("graph_count", Json.nat gs.length), ("node_count", Json.nat nodes.length),
  ("edge_count", Json.nat edges.length)]

/-- The graph of several graphs; a single one is left as it is. -/
def compose (gs : List PolicyGraph) : Except Fault PolicyGraph :=
  match gs with
  | [g] => .ok g
  | gs =>
      match composeNodes 0 [] gs, composeEdges gs with
      | .error f, _ => .error f
      | .ok _, .error f => .error f
      | .ok nodes, .ok edges => make nodes edges (.ofFields (composedMetadata gs nodes edges))

end PolicyGraph
end Eligibility
