import Eligibility.Name.Grouping
import Eligibility.PolicyGraph.Node
/-!
# Policy graphs

**Content.**  Nodes and edges in a fixed order, metadata, and an index that is
built once: the edges that leave and enter each node, the conditions on each
variable, the nodes of each clause.

**Conditions.**  Node identifiers differ from each other, every edge joins two
nodes, and whatever is looked up by is a name.

**Functions.**
* `PolicyGraph.make`: a graph, or the first condition that is not met.
* `node?`, `outEdges`, `inEdges`, `conditionsOn`, `nodesOfClause`: lookups in the index.
* `ruleChildren`, `policyRoots`: the operands of a rule, the rules of a policy.
* `requiredPolicies`, `linkedPolicies`, `clausesOf`: how policies hang together.
-/

namespace Eligibility

/-- What is looked up in a graph. -/
structure Index where
  outgoing : Grouping Edge
  incoming : Grouping Edge
  byVariable : Grouping Node
  byClause : Grouping Node

/-- The index of nodes and edges. -/
def Index.of (nodes : List Node) (edges : List Edge) : Index where
  outgoing := Grouping.ofList (fun e => some e.source) edges
  incoming := Grouping.ofList (fun e => some e.target) edges
  byVariable := Grouping.ofList Node.subject? nodes
  byClause := Grouping.ofList Node.clause? nodes

/-- Nodes and edges with the metadata and the index that belong to them. -/
structure PolicyGraph where
  nodes : List Node
  edges : List Edge
  metadata : Entries Json
  index : Index
  indexed : index = Index.of nodes edges

namespace PolicyGraph

section Conditions

/-- The first node whose identifier is no name or was seen before. -/
def nodeFault? (seen : List Name) : List Node → Option Fault
  | [] => none
  | n :: r =>
      if !Name.isUsable n.id then some .wrongType
      else if n.id.among seen then some (.duplicateNode n.id)
      else nodeFault? (n.id :: seen) r

/-- What is wrong with an end of an edge. -/
def endpointFault? (known : List Name) (e : Edge) (n : Name) : Option Fault :=
  if !Name.isUsable n then some .wrongType
  else if n.among known then none
  else some (.unknownEndpoint e.id n)

/-- The first edge with an end that is no node. -/
def edgeFault? (known : List Name) (edges : List Edge) : Option Fault :=
  edges.findSome? fun e =>
    (endpointFault? known e e.source).or (endpointFault? known e e.target)

/-- Whether what a node is looked up by is a name. -/
def isIndexable (n : Node) : Bool :=
  n.subject?.all Name.isUsable && n.clause?.all Name.isUsable

/-- Whether an identifier is null. -/
def isNull : Name → Bool
  | .null => true
  | _ => false

/-- The first condition on nodes and edges that is not met. -/
def fault? (nodes : List Node) (edges : List Edge) : Option Fault :=
  ((nodeFault? [] nodes).or (edgeFault? (nodes.map Node.id) edges)).or
    (if !nodes.all isIndexable then some .wrongType
    else if nodes.any fun n => isNull n.id then some (.badValue .noNode)
    else if !edges.all fun e => Name.isUsable e.id then some .wrongType
    else none)

/-- A graph, or the first condition that is not met. -/
def make (nodes : List Node) (edges : List Edge) (metadata : Entries Json) :
    Except Fault PolicyGraph :=
  match fault? nodes edges with
  | some f => .error f
  | none => .ok ⟨nodes, edges, metadata, Index.of nodes edges, rfl⟩

end Conditions

section Lookup

/-- The node of an identifier. -/
def node? (g : PolicyGraph) (n : Name) : Option Node := g.nodes.find? fun m => m.id.alike n

/-- Whether an identifier is that of a node. -/
def hasNode (g : PolicyGraph) (n : Name) : Bool := (g.node? n).isSome

/-- The node of an identifier, which must be there. -/
def node (g : PolicyGraph) (n : Name) : Except Fault Node :=
  match g.node? n with
  | some m => .ok m
  | none => .error (if Name.isUsable n then .missingKey n else .wrongType)

/-- The position of the node of an identifier. -/
def position? (g : PolicyGraph) (n : Name) : Option Nat := g.nodes.findIdx? fun m => m.id.alike n

/-- The nodes of a kind. -/
def nodesOfKind (g : PolicyGraph) (k : NodeKind) : List Node := g.nodes.filter fun n => n.kind = k

/-- Edges of a relation, or all of them. -/
def ofRelation (r : Option Relation) (es : List Edge) : List Edge :=
  match r with
  | none => es
  | some r => es.filter fun e => e.relation = r

/-- The edges that leave a node. -/
def outEdges (g : PolicyGraph) (n : Name) (r : Option Relation) : Except Fault (List Edge) :=
  (g.node n).map fun _ => ofRelation r (g.index.outgoing.members n)

/-- The edges that enter a node. -/
def inEdges (g : PolicyGraph) (n : Name) (r : Option Relation) : Except Fault (List Edge) :=
  (g.node n).map fun _ => ofRelation r (g.index.incoming.members n)

/-- The variables of conditions, in rising order. -/
def subjects (g : PolicyGraph) : Except Fault (List Name) :=
  Fault.sorted g.index.byVariable.names

/-- The conditions on a variable. -/
def conditionsOn (g : PolicyGraph) (subject : Name) : List Node :=
  g.index.byVariable.members subject

/-- The identifiers of clauses, in rising order. -/
def clauseIds (g : PolicyGraph) : Except Fault (List Name) :=
  Fault.sorted ((g.nodesOfKind .clause).map Node.ownClause)

/-- The clause node and the conditions of a clause. -/
def nodesOfClause (g : PolicyGraph) (clause : Name) : List Node := g.index.byClause.members clause

/-- Whether a clause has a node. -/
def hasClause (g : PolicyGraph) (clause : Name) : Bool := g.hasNode (Node.clauseId clause)

/-- The node at the end of an edge, if it is of a kind. -/
def targetOf? (g : PolicyGraph) (k : NodeKind) (e : Edge) : Option Node :=
  (g.node? e.target).filter fun n => n.kind = k

end Lookup

section Structure

/-- The policies, with or without those declared elsewhere. -/
def policies (g : PolicyGraph) (external : Bool) : List Node :=
  (g.nodesOfKind .policy).filter fun n => external || !n.isExternal

/-- The identifiers of the policies. -/
def policyIds (g : PolicyGraph) (external : Bool) : List Name :=
  (g.policies external).map Node.policy

/-- The node of a policy. -/
def policyNode? (g : PolicyGraph) (policy : Name) : Option Node := g.node? (Node.policyId policy)

/-- An edge to a condition, with the condition. -/
structure Branch where
  node : Node
  edge : Edge

/-- Branches with their positions. -/
def placed : List Branch → Except Fault (List (Int × Branch))
  | [] => .ok []
  | b :: r => do
      let k ← b.edge.position
      let rest ← placed r
      return (k, b) :: rest

/-- Branches in the order of their positions; of two with one position the first stays first. -/
def arrange (bs : List Branch) : Except Fault (List Branch) :=
  (placed bs).map fun ps => (ps.mergeSort fun a b => decide (a.1 ≤ b.1)).map (·.2)

/-- The conditions that a node depends on, in order. -/
def ruleChildren (g : PolicyGraph) (n : Name) : Except Fault (List Branch) := do
  let es ← g.outEdges n (some .dependsOn)
  arrange (es.filterMap fun e => (g.targetOf? .condition e).map fun m => ⟨m, e⟩)

/-- The rules of a policy, in order. -/
def policyRoots (g : PolicyGraph) (policy : Name) : Except Fault (List Branch) :=
  g.ruleChildren (Node.policyId policy)

/-- The policies that a policy requires. -/
def requiredPolicies (g : PolicyGraph) (policy : Name) : Except Fault (List Name) := do
  let es ← g.outEdges (Node.policyId policy) (some .requires)
  return es.filterMap fun e => (g.targetOf? .policy e).map Node.policy

/-- The clauses that belong to a policy. -/
def clausesOf (g : PolicyGraph) (policy : Name) : Except Fault (List Name) := do
  let es ← g.outEdges (Node.policyId policy) (some .contains)
  return es.filterMap fun e => (g.targetOf? .clause e).map Node.ownClause

/-- The relations by which a policy is linked to another one. -/
abbrev Links := Grouping Relation

/-- Links with one more, unless its edge links no other policy. -/
def noteLink (g : PolicyGraph) (self : Name) (ls : Links) (e : Edge) : Except Fault Links :=
  if !e.relation.isLink then .ok ls
  else
    let other := if e.source.same self then e.target else e.source
    match g.node? other with
    | none => .ok ls
    | some m =>
        if m.kind ≠ .policy ∨ other.same self then .ok ls
        else if !Name.isUsable m.policy then .error .wrongType
        else .ok (if e.relation ∈ ls.members m.policy then ls else ls.add m.policy e.relation)

/-- The policies that a policy is linked to in either direction, with the relations. -/
def linkedPolicies (g : PolicyGraph) (policy : Name) : Except Fault Links :=
  let self := Node.policyId policy
  if !g.hasNode self then .ok []
  else
    (g.index.outgoing.members self ++ g.index.incoming.members self).foldlM (noteLink g self) []

end Structure

/-- The record of a graph, the names of properties spelled by a function. -/
def record (spell : Name → String) (g : PolicyGraph) : Json := .obj [
  ("nodes", .arr (g.nodes.map (Node.record spell))),
  ("edges", .arr (g.edges.map (Edge.record spell))), ("metadata", .obj (g.metadata.spelled spell))]

/-- The record of a graph as it is written to a file. -/
def toJson (g : PolicyGraph) : Json := g.record Name.key

/-- A graph with what is no number in its nodes marked by the graph and their places. -/
def stored (graph : Nat) (g : PolicyGraph) : PolicyGraph :=
  let nodes := g.nodes.mapIdx fun place n => n.stored graph place
  ⟨nodes, g.edges, g.metadata, Index.of nodes g.edges, rfl⟩

end PolicyGraph
end Eligibility
