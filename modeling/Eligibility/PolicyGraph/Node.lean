import Eligibility.Fault
import Eligibility.Number.Integer
/-!
# Nodes and edges of a policy graph

**Nodes.**  Policies, clauses and conditions, the entities and thresholds that
conditions compare with.  A node has properties by name; the operand of a
condition is kept as such, everything else as JSON.

**Edges.**  Directed, with one of six relations.  An edge to an operand of a
logical rule gives its position, and whether it is negated.

**Reading.**  An absent property reads as null.  Nothing asks the properties of a
graph from a file to have the right kinds, so that some questions have no answer.
-/

namespace Eligibility

/-- The kinds of nodes. -/
inductive NodeKind where
  | policy
  | clause
  | condition
  | entity
  | threshold
  deriving DecidableEq

namespace NodeKind

/-- The kinds in the order of their declaration. -/
def all : List NodeKind := [policy, clause, condition, entity, threshold]

/-- The name of a kind. -/
def name : NodeKind → String
  | policy => "POLICY"
  | clause => "CLAUSE"
  | condition => "CONDITION"
  | entity => "ENTITY"
  | threshold => "THRESHOLD"

/-- The kind of a name. -/
def ofName? (s : String) : Option NodeKind := all.find? fun k => k.name == s

theorem ofName?_name (k : NodeKind) : ofName? k.name = some k := by cases k <;> decide

end NodeKind

/-- The relations between nodes. -/
inductive Relation where
  | contains
  | dependsOn
  | conflictsWith
  | modifies
  | appliesTo
  | requires
  deriving DecidableEq

namespace Relation

/-- The relations in the order of their declaration. -/
def all : List Relation := [contains, dependsOn, conflictsWith, modifies, appliesTo, requires]

/-- The name of a relation. -/
def name : Relation → String
  | contains => "CONTAINS"
  | dependsOn => "DEPENDS_ON"
  | conflictsWith => "CONFLICTS_WITH"
  | modifies => "MODIFIES"
  | appliesTo => "APPLIES_TO"
  | requires => "REQUIRES"

/-- The relation of a name. -/
def ofName? (s : String) : Option Relation := all.find? fun r => r.name == s

/-- Whether the relation makes its source depend on its target. -/
def isDependency : Relation → Bool
  | dependsOn => true
  | requires => true
  | _ => false

/-- Whether the relation links two policies. -/
def isLink : Relation → Bool
  | appliesTo => true
  | requires => true
  | _ => false

theorem ofName?_name (r : Relation) : ofName? r.name = some r := by cases r <;> decide

end Relation

/-- The value of a property of a node. -/
inductive Property where
  | json (value : Json)
  | operand (value : Operand)

/-- A property as JSON. -/
def Property.toJson : Property → Json
  | json j => j
  | operand v => v.toJson

/-- A property, a fresh mark of its operand replaced. -/
def Property.marked (m : Mark) : Property → Property
  | operand (.number x) => operand (.number (x.marked m))
  | p => p

/-- A node of a policy graph. -/
structure Node where
  id : Name
  kind : NodeKind
  properties : Entries Property := []
  confidence : Number := Number.one

/-- An edge of a policy graph. -/
structure Edge where
  id : Name
  source : Name
  target : Name
  relation : Relation
  properties : Entries Json := []

namespace Node

/-- A property of a node, if it is there. -/
def property? (n : Node) (k : String) : Option Property := n.properties.get? k

/-- A property of a node as JSON. -/
def get (n : Node) (k : String) : Json :=
  match n.property? k with
  | some p => p.toJson
  | none => .null

/-- The operand of a condition, if it has one. -/
def value? (n : Node) : Option Operand :=
  match n.property? "value" with
  | some (.operand v) => some v
  | _ => none

/-- The operator of a condition, if it has one. -/
def operator? (n : Node) : Except Fault (Option Operator) :=
  match n.get "operator" with
  | .null => .ok none
  | .str s =>
      match Operator.ofName? s with
      | some o => .ok (some o)
      | none => .error (.badValue (.unknownName (.str s) "Operator"))
  | j => .error (.badValue (.unknownName j "Operator"))

/-- Whether the node is a condition. -/
def isCondition (n : Node) : Bool := n.kind = .condition

/-- Whether the node is a condition without operands of its own. -/
def isLeaf (n : Node) : Bool := n.isCondition && !(n.get "compound").truthy

theorem kind_of_isLeaf {n : Node} (h : n.isLeaf = true) : n.kind = .condition := by
  rw [isLeaf, Bool.and_eq_true] at h
  simpa [isCondition] using h.1

/-- Whether the node combines other conditions. -/
def isCompound (n : Node) : Bool := n.isCondition && (n.get "compound").truthy

/-- Whether the node only stands for a policy that is declared elsewhere. -/
def isExternal (n : Node) : Bool := (n.get "external").truthy

/-- The variable of a condition. -/
def subject (n : Node) : Name := n.get "variable"

/-- The rule of a condition. -/
def rule (n : Node) : Name := n.get "rule_id"

/-- The policy of a node. -/
def policy (n : Node) : Name := n.get "policy_id"

/-- The clause that a condition cites. -/
def citedClause (n : Node) : Name := n.get "clause_reference"

/-- The clause that a clause node stands for. -/
def ownClause (n : Node) : Name := n.get "clause_id"

/-- The variable of a condition without operands of its own. -/
def subject? (n : Node) : Option Name := if n.isLeaf then some n.subject else none

/-- The clause that a node belongs to, for clauses and conditions. -/
def clause? (n : Node) : Option Name :=
  match n.kind with
  | .clause => some n.ownClause
  | .condition => some n.citedClause
  | _ => none

/-- The record of a node, the names of its properties spelled by a function. -/
def record (spell : Name → String) (n : Node) : Json := .obj [
  ("node_id", n.id), ("node_type", .str n.kind.name),
  ("properties", .obj ((n.properties.mapValues Property.toJson).spelled spell)),
  ("confidence", .float n.confidence)]

/-- The record of a node as it is written to a file. -/
def toJson (n : Node) : Json := n.record Name.key

/-- Whether two nodes agree in everything. -/
def alike (m n : Node) : Bool :=
  m.id.alike n.id && decide (m.kind = n.kind) &&
    Entries.alike Json.alike (m.properties.mapValues Property.toJson)
      (n.properties.mapValues Property.toJson) && m.confidence.alike n.confidence

/-- A node with what is no number in it marked by the graph and the place it was stored at. -/
def stored (graph place : Nat) (n : Node) : Node :=
  { n with
    properties := n.properties.mapValues (Property.marked (.stored graph place))
    confidence := n.confidence.marked (.stored graph place) }

section Identifiers

/-- The text that identifies the node of a policy. -/
def policyKey (policy : String) : String := "policy:" ++ policy

/-- The text that identifies the node of a clause. -/
def clauseKey (clause : String) : String := "clause:" ++ clause

/-- The text that identifies the node of a rule. -/
def conditionKey (rule : String) : String := "condition:" ++ rule

/-- The text that identifies the node of an entity. -/
def entityKey (name : String) : String := "entity:" ++ name

/-- The text that identifies the node of a threshold. -/
def thresholdKey (subject : String) (o : Operator) (x : Number) : String :=
  "threshold:" ++ subject ++ ":" ++ o.name ++ ":" ++ String.ofList x.brief

/-- The identifier of the node of a policy. -/
def policyId (policy : Name) : Name := .str (policyKey policy.display)

/-- The identifier of the node of a clause. -/
def clauseId (clause : Name) : Name := .str (clauseKey clause.display)

end Identifiers

end Node

namespace Edge

/-- A property of an edge as JSON. -/
def get (e : Edge) (k : String) : Json := (e.properties.get? k).getD .null

/-- Whether the target counts with the opposite truth value. -/
def isNegated (e : Edge) : Bool := (e.get "negated").truthy

/-- The position of the target among its siblings. -/
def position (e : Edge) : Except Fault Int :=
  match e.properties.get? "position" with
  | none => .ok 0
  | some (.int n) => .ok n
  | some (.bool b) => .ok (if b then 1 else 0)
  | some (.float x) =>
      match x.value? with
      | some q => .ok (Number.truncate q)
      | none =>
          .error (if x.isNaN then .badValue .noInteger else .outOfRange)
  | some (.str s) =>
      match Number.readInteger s.toList with
      | .ok n => .ok n
      | .error .malformed => .error (.badValue (.notInteger s))
      | .error (.tooLong digits) => .error (.badValue (.tooLong digits))
  | some _ => .error .wrongType

/-- The record of an edge, the names of its properties spelled by a function. -/
def record (spell : Name → String) (e : Edge) : Json := .obj [
  ("edge_id", e.id), ("source_node", e.source), ("target_node", e.target),
  ("relationship", .str e.relation.name), ("properties", .obj (e.properties.spelled spell))]

/-- The record of an edge as it is written to a file. -/
def toJson (e : Edge) : Json := e.record Name.key

end Edge
end Eligibility
