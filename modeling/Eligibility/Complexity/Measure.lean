import Eligibility.Complexity
import Eligibility.Event
import Eligibility.PolicyGraph.Path
/-!
# Measuring the complexity of policies

**Measures.**  Conditions, logical operators and depth are counted over the rule
trees of the policies, links over their edges to other policies, flags over their
rules and clauses.  The readability is the mean over their clauses: what the
clause says, else what a reader of texts says, else the default.

**Functions.**
* `PolicyGraph.measure`: the factors of policies, and how many clauses they have.
* `PolicyGraph.score`: the score of one policy or of all.
-/

namespace Eligibility
namespace PolicyGraph

section Trees

/-- Nodes of a tree with the depth of the tree. -/
structure Reach where
  depth : Nat
  nodes : List Node

/-- A node above trees. -/
def reachAbove (n : Node) (rs : List Reach) : Reach :=
  ⟨(rs.map Reach.depth).foldl Nat.max 0 + 1, n :: rs.flatMap Reach.nodes⟩

/-- The conditions at and below a node, within a depth. -/
def reachTo (g : PolicyGraph) : Nat → Node → Except Fault Reach
  | 0, _ => .error .unbounded
  | fuel + 1, n => do
      let bs ← g.ruleChildren n.id
      let rs ← bs.mapM fun b => reachTo g fuel b.node
      return reachAbove n rs

/-- The conditions at and below a node. -/
def reach (g : PolicyGraph) (n : Node) : Except Fault Reach := reachTo g g.depthBound n

/-- The conditions of a policy, tree after tree. -/
def reachOf (g : PolicyGraph) (policy : Name) : Except Fault (List Reach) := do
  let roots ← g.policyRoots policy
  roots.mapM fun b => g.reach b.node

end Trees

section Clauses

/-- A reader of texts: a readability for the text of a clause, or null. -/
abbrev ReadabilityReader := Json → Json

/-- The clause nodes of a policy. -/
def clauseNodesOf (g : PolicyGraph) (policy : Name) : Except Fault (List Node) :=
  (g.clausesOf policy).map fun cs =>
    cs.flatMap fun c => (g.nodesOfClause c).filter fun n => n.kind = .clause

/-- A number kept between zero and one; what is no number counts as zero. -/
def clamp (x : Number) : Rat :=
  match x with
  | .posInf => 1
  | x => atMost 1 (atLeast 0 (x.value?.getD 0))

/-- Whether a value is null. -/
def isAbsent : Json → Bool
  | .null => true
  | _ => false

/-- What is said of the readability of a clause, or null. -/
def statedReadability (reader : Option ReadabilityReader) (n : Node) : Json :=
  let own := n.get "readability"
  match reader with
  | some read => if isAbsent own && (n.get "text").truthy then read (n.get "text") else own
  | none => own

/-- The readability of a clause. -/
def clauseReadability (cfg : Settings) (reader : Option ReadabilityReader) (n : Node) :
    Except Fault Rat :=
  match statedReadability reader n with
  | .null => .ok (clamp cfg.defaultReadability)
  | j => (Fault.number j).map clamp

/-- The mean of numbers, and one where there are none. -/
def mean (round : Rat → Rat) (xs : List Rat) : Rat :=
  if xs.isEmpty then 1 else round (Weights.total round xs / (xs.length : Rat))

end Clauses

section Measures

/-- How many edges lead from a policy to policies it is linked to. -/
def linkCount (g : PolicyGraph) (policy : Name) : Except Fault Nat :=
  (g.outEdges (Node.policyId policy) none).map fun es =>
    (es.filter fun e => e.relation.isLink && (g.targetOf? .policy e).isSome).length

/-- What is found of one policy. -/
structure Survey where
  reaches : List Reach
  clauses : List Node
  clauseCount : Nat
  links : Nat

/-- The trees and the clauses of a policy. -/
def surveyTrees (g : PolicyGraph) (policy : Name) : Except Fault (List Reach × List Node) := do
  let reaches ← g.reachOf policy
  let clauses ← g.clauseNodesOf policy
  return (reaches, clauses)

/-- The links of a policy, and how many clauses it has. -/
def surveyLinks (g : PolicyGraph) (policy : Name) : Except Fault (Nat × Nat) := do
  let links ← g.linkCount policy
  let clauses ← g.clausesOf policy
  return (links, clauses.length)

/-- How many nodes are flagged under a key. -/
def flagged (k : String) (ns : List Node) : Nat := (ns.filter fun n => (n.get k).truthy).length

/-- The factors of policies, and how many clauses they have. -/
def measure (round : Rat → Rat) (cfg : Settings) (reader : Option ReadabilityReader)
    (g : PolicyGraph) (policies : List Name) : Except Fault (Factors × Nat) := do
  let trees ← policies.mapM g.surveyTrees
  let links ← policies.mapM g.surveyLinks
  let reaches := trees.flatMap (·.1)
  let conditions := reaches.flatMap Reach.nodes
  let clauses := trees.flatMap (·.2)
  let readabilities ← clauses.mapM (clauseReadability cfg reader)
  let compounds := (conditions.filter Node.isCompound).length
  return ({
    conditions := (conditions.filter Node.isLeaf).length
    density := if clauses.isEmpty then 0 else round ((compounds : Rat) / (clauses.length : Rat))
    depth := (reaches.map Reach.depth).foldl Nat.max 0
    crossReferences := (links.map (·.1)).foldr (· + ·) 0
    readability := mean round readabilities
    ambiguities := flagged "low_confidence" conditions + flagged "ambiguous" clauses },
    (links.map (·.2)).foldr (· + ·) 0)

/-- The policies to score: a declared one, or all. -/
def scoredPolicies (g : PolicyGraph) (policy : Json) : Except Fault (List Name) :=
  match policy with
  | .null => .ok (g.policyIds false)
  | p =>
      match g.policyNode? p with
      | none => .error (.unknownPolicy p)
      | some n => if n.isExternal then .error (.unknownPolicy p) else .ok [p]

/-- The score of a policy, or of all where none is named. -/
def scoreOf (round : Rat → Rat) (cfg : Settings) (reader : Option ReadabilityReader)
    (g : PolicyGraph) (policy : Json) : Except Fault Score := do
  let policies ← g.scoredPolicies policy
  let (factors, clauses) ← g.measure round cfg reader policies
  return Score.of round cfg clauses factors

/-- The event of a score. -/
def scoreEvent (policy : Json) (s : Score) : Event :=
  ⟨.info, "complexity_scored", [("policy_id", policy), ("score", .float (.finite s.overall)),
    ("category", .str s.band.name)]⟩

/-- The score in double precision of a policy, or of all where none is named, with its event. -/
def score (cfg : Settings) (reader : Option ReadabilityReader) (g : PolicyGraph) (policy : Json) :
    Logged Score :=
  match scoreOf Number.keep cfg reader g policy with
  | .error f => ⟨[], .error f⟩
  | .ok s => ⟨[scoreEvent policy s], .ok s⟩

end Measures

end PolicyGraph
end Eligibility
