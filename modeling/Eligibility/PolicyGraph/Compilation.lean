import Eligibility.Event
import Eligibility.PolicyGraph
import Eligibility.RuleSet.Validation
/-!
# Compiling rule sets into policy graphs

**Documents.**  Each document becomes a policy.  Without documents each top-level
rule does, and owns the clauses of its tree that no earlier one cites.

**Layout.**  First the policies with their clauses, then the policies that are
only mentioned, then the rule trees of each policy in depth-first order with the
thresholds and entities they compare with.  Of two nodes with one identifier the
first stands, equal edges are drawn once, and edges are numbered as drawn.

**Functions.**
* `RuleSet.plan`: documents and the policies of top-level rules, or what is missing.
* `Plan.nodes`, `Plan.edges`: the content of the graph.
* `RuleSet.graph`, `RuleSet.build`: the graph, without and with its log events.
* `RuleSet.compile`: a payload, validated and built.
-/

namespace Eligibility
open Schema

/-- What an edge says besides its ends and its relation. -/
inductive Label where
  | plain
  | root (position : Nat)
  | operand (operator : Operator) (position : Nat)
  | via (clause : String)
  deriving DecidableEq

/-- An edge that has no number yet. -/
structure Draft where
  source : String
  target : String
  relation : Relation
  label : Label := .plain
  deriving DecidableEq

/-- The documents of a graph, and the top-level rules with the policies they belong to. -/
structure Plan where
  documents : List Document
  roots : List (String × Rule)

namespace Label

/-- A label as the properties of an edge. -/
def properties : Label → List (String × Json)
  | plain => []
  | root position => [("operator", .str Operator.and.name), ("position", Json.nat position)]
  | operand operator position => [
      ("operator", .str operator.name), ("position", Json.nat position),
      ("negated", .bool (operator = .not))]
  | via clause => [("via_clause", .str clause)]

end Label

namespace Edge

/-- The identifier of the edge drawn after `n` others. -/
def numbered (n : Nat) : Name :=
  let ds := Decimal.digitsOf (n + 1)
  .str (String.ofList ('E' :: (List.replicate (5 - ds.length) '0' ++ ds)))

end Edge

namespace Draft

/-- The edge of a draft, drawn after `n` others. -/
def toEdge (n : Nat) (d : Draft) : Edge where
  id := Edge.numbered n
  source := .str d.source
  target := .str d.target
  relation := d.relation
  properties := Entries.ofFields d.label.properties

/-- Drafts in order, without those that were seen before. -/
def firsts (seen : List Draft) : List Draft → List Draft
  | [] => []
  | d :: r => if d ∈ seen then firsts seen r else d :: firsts (d :: seen) r

/-- The edges of drafts, the first one drawn after `n` others. -/
def number (n : Nat) : List Draft → List Edge
  | [] => []
  | d :: r => d.toEdge n :: number (n + 1) r

end Draft

namespace Node

/-- Nodes in order, without those whose identifier was seen before. -/
def firsts (seen : List Name) : List Node → List Node
  | [] => []
  | n :: r => if n.id.among seen then firsts seen r else n :: firsts (n.id :: seen) r

end Node

namespace RuleSet

section Documents

/-- Texts in order, without those that were seen before. -/
def firstTexts (seen : List String) : List String → List String
  | [] => []
  | x :: r => if x ∈ seen then firstTexts seen r else x :: firstTexts (x :: seen) r

/-- The documents that stand for top-level rules, given the clauses owned before. -/
def declare (owned : List String) : List Rule → List Document
  | [] => []
  | r :: rs =>
      let fresh := firstTexts owned (r.heads.map Head.clause)
      { policy := r.id, clauses := fresh.map fun c => { id := c } } ::
        declare (fresh ++ owned) rs

/-- What keeps a top-level rule from standing for a document. -/
def declarationFault? (r : Rule) : Option Fault :=
  if r.heads.any fun h => h.clause = "" then
    some (.flawed [⟨[.key "clause_id"], .emptyText⟩])
  else if r.id = "" then some (.flawed [⟨[.key "policy_id"], .emptyText⟩])
  else none

/-- The policy that owns a clause: that of the first document that holds it. -/
def owner? (ds : List Document) (clause : String) : Option String :=
  (ownedClauses ds).lookup clause

/-- Top-level rules with the owners of the clauses they cite. -/
def assign (ds : List Document) : List Rule → Except Fault (List (String × Rule))
  | [] => .ok []
  | r :: rs =>
      match owner? ds r.head.clause with
      | none => .error (.rules (.unknownClause r.id r.head.clause))
      | some p => (assign ds rs).map ((p, r) :: ·)

/-- The documents of a rule set and the policies of its top-level rules. -/
def plan (s : RuleSet) : Except Fault Plan :=
  if s.documents.isEmpty then
    match s.rules.findSome? declarationFault? with
    | some f => .error f
    | none => .ok ⟨declare [] s.rules, s.rules.map fun r => (r.id, r)⟩
  else (assign s.documents s.rules).map fun roots => ⟨s.documents, roots⟩

end Documents

end RuleSet

namespace Plan

section Trees

/-- Whether a confidence is below the threshold of extraction. -/
def isLow (cfg : Settings) (h : Head) : Bool :=
  h.confidence.any fun x => x.lt cfg.extractionThreshold

/-- The node of a rule. -/
def conditionNode (cfg : Settings) (policy : String) (h : Head) : Node where
  id := .str (Node.conditionKey h.id)
  kind := .condition
  properties := .ofFields [
    ("rule_id", .json (.str h.id)), ("variable", .json (.str h.subject)),
    ("operator", .json (.str h.operator.name)),
    ("value", (h.value.map Property.operand).getD (.json .null)),
    ("clause_reference", .json (.str h.clause)), ("policy_id", .json (.str policy)),
    ("logical_group", .json (Json.str? h.group)), ("low_confidence", .json (.bool (isLow cfg h))),
    ("compound", .json (.bool h.operator.isLogical))]
  confidence := h.confidence.getD Number.one

/-- The node of the threshold of a comparison with a number. -/
def thresholdNode (h : Head) (x : Number) : Node where
  id := .str (Node.thresholdKey h.subject h.operator x)
  kind := .threshold
  properties := .ofFields [
    ("variable", .json (.str h.subject)), ("operator", .json (.str h.operator.name)),
    ("value", .operand (.number x))]

/-- The node of an entity. -/
def entityNode (name : String) : Node where
  id := .str (Node.entityKey name)
  kind := .entity
  properties := .ofFields [("name", .json (.str name))]

/-- The texts that an operand names. -/
def namesOf : Operand → List String
  | .text s => [s]
  | .texts ss => ss.members
  | _ => []

/-- The nodes that an operand is compared through. -/
def operandNodes (h : Head) : List Node :=
  match h.value with
  | some (.number x) => [thresholdNode h x]
  | some v => (namesOf v).map entityNode
  | none => []

/-- The edges from a rule to the nodes of its operand. -/
def operandDrafts (h : Head) : List Draft :=
  match h.value with
  | some (.number x) =>
      [⟨Node.conditionKey h.id, Node.thresholdKey h.subject h.operator x, .requires, .plain⟩]
  | some v =>
      (namesOf v).map fun name => ⟨Node.conditionKey h.id, Node.entityKey name, .appliesTo, .plain⟩
  | none => []

/-- The edges that tie a rule to its clause, and its policy to the owner of that clause. -/
def clauseDrafts (ds : List Document) (policy : String) (h : Head) : List Draft :=
  ⟨Node.clauseKey h.clause, Node.conditionKey h.id, .contains, .plain⟩ ::
    (match RuleSet.owner? ds h.clause with
    | some owner =>
        if owner = policy then []
        else [⟨Node.policyKey policy, Node.policyKey owner, .appliesTo, .via h.clause⟩]
    | none => [])

mutual

/-- The nodes of a tree, a rule before its operand and its children. -/
def treeNodes (cfg : Settings) (policy : String) : Rule → List Node
  | .node h cs => conditionNode cfg policy h :: (operandNodes h ++ treesNodes cfg policy cs)

/-- The nodes of several trees. -/
def treesNodes (cfg : Settings) (policy : String) : List Rule → List Node
  | [] => []
  | r :: rs => treeNodes cfg policy r ++ treesNodes cfg policy rs

end

mutual

/-- The edges of a tree. -/
def treeDrafts (ds : List Document) (policy : String) : Rule → List Draft
  | .node h cs =>
      clauseDrafts ds policy h ++ (operandDrafts h ++ childDrafts ds policy h 0 cs)

/-- The edges from a rule to its children from a position on, each with those of the child. -/
def childDrafts (ds : List Document) (policy : String) (h : Head) : Nat → List Rule → List Draft
  | _, [] => []
  | n, r :: rs =>
      ⟨Node.conditionKey h.id, Node.conditionKey r.id, .dependsOn, .operand h.operator n⟩ ::
        (treeDrafts ds policy r ++ childDrafts ds policy h (n + 1) rs)

end

/-- What keeps a rule from being compiled. -/
def headFault? (ds : List Document) (h : Head) : Option Fault :=
  if h.confidence.isNone then some .wrongType
  else if (RuleSet.owner? ds h.clause).isNone then some (.rules (.unknownClause h.id h.clause))
  else none

end Trees

section Layout

/-- The node of a policy. -/
def policyNode (cfg : Settings) (d : Document) (roots : List Rule) : Node where
  id := .str (Node.policyKey d.policy)
  kind := .policy
  properties := .ofFields [
    ("policy_id", .json (.str d.policy)), ("title", .json (.str d.title)),
    ("entity_type", .json (.str
      (match d.entity with
      | some e => if e = "" then cfg.defaultEntity else e
      | none => cfg.defaultEntity))),
    ("external", .json (.bool false)), ("root_rule_ids", .json (Json.strs (roots.map Rule.id)))]

/-- The node of a clause. -/
def clauseNode (policy : String) (c : Clause) : Node where
  id := .str (Node.clauseKey c.id)
  kind := .clause
  properties := .ofFields [
    ("clause_id", .json (.str c.id)), ("policy_id", .json (.str policy)),
    ("text", .json (.str c.text)), ("readability", .json (Json.float? c.readability)),
    ("ambiguous", .json (.bool c.ambiguous))]

/-- The node of a policy that is only mentioned. -/
def externalNode (policy : String) : Node where
  id := .str (Node.policyKey policy)
  kind := .policy
  properties := .ofFields [
    ("policy_id", .json (.str policy)), ("title", .json (.str "")),
    ("entity_type", .json .null), ("external", .json (.bool true)),
    ("root_rule_ids", .json (.arr []))]

/-- The top-level rules of a policy. -/
def rootsOf (p : Plan) (policy : String) : List Rule :=
  (p.roots.filter fun r => r.1 = policy).map (·.2)

/-- The policies that a document mentions and no document declares. -/
def undeclared (p : Plan) (d : Document) : List String :=
  (d.prerequisites ++ d.appliesTo).filter fun t => t ∉ p.documents.map Document.policy

/-- The nodes of a plan as they are laid out. -/
def layout (cfg : Settings) (p : Plan) : List Node :=
  (p.documents.flatMap fun d =>
    policyNode cfg d (p.rootsOf d.policy) :: d.clauses.map (clauseNode d.policy)) ++
  (p.documents.flatMap fun d => (p.undeclared d).map externalNode) ++
  p.documents.flatMap fun d => (p.rootsOf d.policy).flatMap (treeNodes cfg d.policy)

/-- The nodes of a plan. -/
def nodes (cfg : Settings) (p : Plan) : List Node := Node.firsts [] (p.layout cfg)

/-- The edges to the top-level rules of a policy from a position on, each with those of its tree. -/
def rootDrafts (ds : List Document) (policy : String) : Nat → List Rule → List Draft
  | _, [] => []
  | n, r :: rs =>
      ⟨Node.policyKey policy, Node.conditionKey r.id, .dependsOn, .root n⟩ ::
        (treeDrafts ds policy r ++ rootDrafts ds policy (n + 1) rs)

/-- The edges from a policy to those that its document mentions. -/
def mentionDrafts (d : Document) : List Draft :=
  (RuleSet.firstTexts [] d.prerequisites).map
      (fun t => ⟨Node.policyKey d.policy, Node.policyKey t, .requires, .plain⟩) ++
    ((RuleSet.firstTexts [] d.appliesTo).filter fun t => t ≠ d.policy).map
      (fun t => ⟨Node.policyKey d.policy, Node.policyKey t, .appliesTo, .plain⟩)

/-- The edges of a plan as they are drawn. -/
def drafts (p : Plan) : List Draft :=
  (p.documents.flatMap fun d =>
    d.clauses.map fun c => ⟨Node.policyKey d.policy, Node.clauseKey c.id, .contains, .plain⟩) ++
  (p.documents.flatMap fun d => rootDrafts p.documents d.policy 0 (p.rootsOf d.policy)) ++
  p.documents.flatMap mentionDrafts

/-- The edges of a plan. -/
def edges (p : Plan) : List Edge := Draft.number 0 (Draft.firsts [] p.drafts)

/-- The heads of all rules, policy after policy. -/
def heads (p : Plan) : List Head :=
  p.documents.flatMap fun d => Rule.headsOf (p.rootsOf d.policy)

/-- The number of rules whose confidence is below the threshold. -/
def lowCount (cfg : Settings) (p : Plan) : Nat := ((p.heads).filter (isLow cfg)).length

/-- The metadata of a graph. -/
def metadata (cfg : Settings) (s : RuleSet) (p : Plan) : List (String × Json) := [
  ("schema_version", .str s.version), ("fingerprint", .str s.fingerprint),
  ("policy_count", Json.nat p.documents.length),
  ("clause_count",
    Json.nat (RuleSet.firstTexts [] ((RuleSet.ownedClauses p.documents).map (·.1))).length),
  ("condition_count", Json.nat ((p.nodes cfg).filter Node.isCondition).length),
  ("low_confidence_count", Json.nat (p.lowCount cfg)),
  ("node_count", Json.nat (p.nodes cfg).length), ("edge_count", Json.nat p.edges.length)]

end Layout

end Plan

namespace RuleSet

/-- A plan whose rules can all be compiled. -/
def checkedPlan (s : RuleSet) : Except Fault Plan :=
  match s.plan with
  | .error f => .error f
  | .ok p =>
      match p.heads.findSome? (Plan.headFault? p.documents) with
      | some f => .error f
      | none => .ok p

/-- The graph of a plan. -/
def graphOf (cfg : Settings) (s : RuleSet) (p : Plan) : Except Fault PolicyGraph :=
  PolicyGraph.make (p.nodes cfg) p.edges (.ofFields (p.metadata cfg s))

/-- The graph of a rule set. -/
def graph (cfg : Settings) (s : RuleSet) : Except Fault PolicyGraph :=
  match s.checkedPlan with
  | .error f => .error f
  | .ok p => graphOf cfg s p

/-- The events of a graph that was built. -/
def buildEvents (cfg : Settings) (p : Plan) (g : PolicyGraph) : List Event :=
  let low := p.lowCount cfg
  (if low = 0 then []
  else [⟨.warning, "low_confidence_conditions_flagged",
    [("count", Json.nat low), ("threshold", .float cfg.extractionThreshold)]⟩]) ++
  [⟨.info, "graph_built", [("policies", Json.nat p.documents.length),
    ("nodes", Json.nat g.nodes.length), ("edges", Json.nat g.edges.length)]⟩]

/-- The graph of a rule set, with its log events. -/
def build (cfg : Settings) (s : RuleSet) : Logged PolicyGraph :=
  match s.checkedPlan with
  | .error f => ⟨[], .error f⟩
  | .ok p =>
      match graphOf cfg s p with
      | .error f => ⟨[], .error f⟩
      | .ok g => ⟨buildEvents cfg p g, .ok g⟩

/-- How many identifiers a warning lists. -/
def listedIds : Nat := 20

/-- The events of a rule set that was accepted. -/
def acceptEvents (cfg : Settings) (s : RuleSet) : List Event :=
  let low := s.lowConfidence cfg
  (if low.isEmpty then []
  else [⟨.warning, "low_confidence_rules_passed_through",
    [("count", Json.nat low.length), ("threshold", .float cfg.extractionThreshold),
      ("rule_ids", Json.strs (low.take listedIds))]⟩]) ++
  [⟨.info, "ir_validated", [("schema_version", .str s.version),
    ("root_rules", Json.nat s.rules.length), ("documents", Json.nat s.documents.length)]⟩]

/-- The rule set of a payload that is accepted, with its log events. -/
def accept (cfg : Settings) (payload : Json) : Logged RuleSet :=
  match RuleSet.parse cfg payload with
  | .error f => ⟨[], .error (.rules f)⟩
  | .ok s => ⟨acceptEvents cfg s, .ok s⟩

/-- The graph of a payload that is accepted, with its log events. -/
def compile (cfg : Settings) (payload : Json) : Logged PolicyGraph :=
  (accept cfg payload).bind (build cfg)

end RuleSet
end Eligibility
