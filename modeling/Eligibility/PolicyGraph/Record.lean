import Eligibility.PolicyGraph
/-!
# Policy graphs as JSON records

**Form.**  An object with the lists `nodes` and `edges` and the object `metadata`,
each of which may be absent.  The operand of a condition is tagged with its kind;
confidences may be given as texts.

**Order.**  Nodes are read before edges, and the fields of each in a fixed order;
the first value that does not fit is the fault.  Then the graph is made, with the
conditions on graphs.

**Functions.**
* `Node.read`, `Edge.read`, `PolicyGraph.read`: readers of records.
-/

namespace Eligibility
open Schema

namespace Payload

/-- A fault of a payload as a fault. -/
def fail {α : Type} (cause : PayloadFault) : Except Fault α := .error (.malformedGraph cause)

/-- A value of a record that must be there. -/
def field (k : String) (fs : List (String × Json)) : Except Fault Json :=
  match Json.lookup k fs with
  | some j => .ok j
  | none => fail (.missingKey k)

/-- A result within a payload, a bad value or a wrong type being a fault of the payload. -/
def embed {α : Type} : Except Fault α → Except Fault α
  | .error (.badValue cause) => fail (.badValue cause)
  | .error .wrongType => fail .wrongType
  | r => r

/-- A mapping within a payload. -/
def mapping (j : Json) : Except Fault (Entries Json) := embed (Fault.mapping j)

/-- A confidence: a number, a truth value, or a text that is a number. -/
def number (j : Json) : Except Fault Number := embed (Fault.number j)

/-- The items of a list within a payload. -/
def items (j : Json) : Except Fault (List Json) :=
  match j.elements? with
  | some xs => .ok xs
  | none => fail .wrongType

end Payload

namespace Node

/-- The properties of a node, with its operand read. -/
def readProperties (es : Entries Json) : Except Fault (Entries Property) :=
  match es.get? "value" with
  | none => .ok (es.mapValues .json)
  | some .null => .ok (es.mapValues .json)
  | some j =>
      match Operand.read j with
      | .flawed flaws => Payload.fail (.flawed flaws)
      | .ok v =>
          .ok (es.map fun e => (e.1, if e.1.same (.str "value") then .operand v else .json e.2))

/-- The kind of a node. -/
def readKind (j : Json) : Except Fault NodeKind :=
  let unknown : Except Fault NodeKind := Payload.fail (.badValue (.unknownName j "NodeType"))
  match j with
  | .str s => (NodeKind.ofName? s).elim unknown .ok
  | _ => unknown

/-- A node given as a record. -/
def read : Json → Except Fault Node
  | .obj fs => do
      let ps ← Payload.mapping ((Json.lookup "properties" fs).getD (.obj []))
      let properties ← readProperties ps
      let id ← Payload.field "node_id" fs
      let kind ← (Payload.field "node_type" fs).bind readKind
      let confidence ← Payload.number ((Json.lookup "confidence" fs).getD (.float Number.one))
      return ⟨id, kind, properties, confidence⟩
  | _ => .error .noAttribute

end Node

namespace Edge

/-- The relation of an edge. -/
def readRelation (j : Json) : Except Fault Relation :=
  let unknown : Except Fault Relation := Payload.fail (.badValue (.unknownName j "RelationshipType"))
  match j with
  | .str s => (Relation.ofName? s).elim unknown .ok
  | _ => unknown

/-- An edge given as a record. -/
def read : Json → Except Fault Edge
  | .obj fs => do
      let id ← Payload.field "edge_id" fs
      let source ← Payload.field "source_node" fs
      let target ← Payload.field "target_node" fs
      let relation ← (Payload.field "relationship" fs).bind readRelation
      let properties ← Payload.mapping ((Json.lookup "properties" fs).getD (.obj []))
      return ⟨id, source, target, relation, properties⟩
  | _ => Payload.fail .wrongType

end Edge

namespace PolicyGraph

/-- A graph given as a record. -/
def read : Json → Except Fault PolicyGraph
  | .obj fs => do
      let nodes ← (Payload.items ((Json.lookup "nodes" fs).getD (.arr []))).bind (·.mapM Node.read)
      let edges ← (Payload.items ((Json.lookup "edges" fs).getD (.arr []))).bind (·.mapM Edge.read)
      let metadata ← Fault.mappingOrEmpty ((Json.lookup "metadata" fs).getD (.obj []))
      make nodes edges metadata
  | _ => .error .noAttribute

/-- Whether a payload, by its keys, is a graph and not a rule set. -/
def isRecord (j : Json) : Except Fault Bool :=
  match j with
  | .obj fs => .ok ((Json.lookup "nodes" fs).isSome && (Json.lookup "edges" fs).isSome)
  | .arr xs => .ok ((Json.str "nodes").among xs && (Json.str "edges").among xs)
  | .str s => .ok (s.contains "nodes" && s.contains "edges")
  | _ => .error .wrongType

end PolicyGraph
end Eligibility
