import Eligibility.Conflict.Cycle
import Eligibility.Conflict.Impossibility
import Eligibility.Conflict.Scope
import Eligibility.PolicyGraph.Path
/-!
# Looking for conflicts

**Passes.**  Each pass looks for one kind of conflict and gives candidates, which
are reported only if their policies share a scope.

* *Contradiction*: two conditions on one path of a policy that cannot hold together.
* *Exclusion*: a requirement of one policy that cannot hold with one of another policy.
* *Circularity*: a cycle of dependencies.
* *Incompatible threshold*: a range that qualifies for one policy and disqualifies for another.
* *Impossibility*: two conditions on one path that an entry of a table excludes.

**Functions.**
* `PolicyGraph.candidates`: the candidates of a pass.
-/

namespace Eligibility

/-- A conflict that was found, before its scope is checked. -/
structure Candidate where
  kind : ConflictKind
  severity : Severity
  nodes : List Name
  policies : List Name
  clauses : List Name
  explanation : String
  evidence : List (String × Json)
  entities : Bool := true

namespace Literal

/-- A literal as evidence. -/
def evidence (l : Literal) : Except Fault Json :=
  l.describe.map fun text => .obj [
    ("rule_id", l.rule), ("clause_reference", l.clause), ("policy_id", l.node.policy),
    ("constraint", .str text)]

end Literal

namespace PolicyGraph

/-- A name between single quotes. -/
def quoted (n : Name) : String := "'" ++ n.display ++ "'"

/-- A text between single quotes. -/
def quotedText (s : String) : String := "'" ++ s ++ "'"

section Contradictions

/-- Candidates found so far, and the pairs of nodes that they are about. -/
structure PairSearch where
  seen : List (Name × Name) := []
  found : List Candidate := []

/-- Whether a pair was seen before. -/
def PairSearch.hasSeen (s : PairSearch) (a b : Name) : Bool :=
  s.seen.any fun p => p.1.alike a && p.2.alike b

/-- The candidate of two literals on one path that cannot hold together. -/
def contradictionCandidate (policy : Name) (a b : Name) (leaf other : Literal) :
    Except Fault Candidate := do
  let first ← leaf.describe
  let second ← other.describe
  let e ← leaf.evidence
  let f ← other.evidence
  return {
    kind := .contradiction
    severity := .critical
    nodes := [a, b]
    policies := [policy]
    clauses := [leaf.clause, other.clause]
    explanation := "Policy " ++ quoted policy ++ " requires both " ++ quotedText first ++ " and " ++
      quotedText second ++ " on the same path; no value satisfies both"
    evidence := [("variable", leaf.subject), ("conditions", .arr [e, f])] }

/-- A literal beside a leaf on its variable. -/
def contradictionStep (policy : Name) (leaf : Literal) (s : PairSearch) (other : Literal) :
    Except Fault PairSearch := do
  match ← Fault.sorted [leaf.node.id, other.node.id] with
  | [a, b] =>
      if s.hasSeen a b || a.same b then return s
      let c ← leaf.condition
      let d ← other.condition
      if ← c.jointly d then return s
      let found ← contradictionCandidate policy a b leaf other
      return ⟨s.seen ++ [(a, b)], s.found ++ [found]⟩
  | _ => return s

/-- A path of a policy. -/
def contradictionPath (policy : Name) (s : PairSearch) (p : Path) : Except Fault PairSearch :=
  (p.context.filter fun l => l.subject.alike p.leaf.subject).foldlM
    (contradictionStep policy p.leaf) s

/-- A policy. -/
def contradictionPolicy (g : PolicyGraph) (s : PairSearch) (policy : Name) :
    Except Fault PairSearch := do
  (← g.paths policy).foldlM (contradictionPath policy) s

/-- Pairs of conditions on one path that cannot hold together. -/
def contradictions (g : PolicyGraph) : Except Fault (List Candidate) :=
  ((g.policyIds false).foldlM (contradictionPolicy g) {}).map PairSearch.found

end Contradictions

section Exclusions

/-- A requirement and the policy that has it. -/
structure Demand where
  policy : Name
  literal : Literal

/-- The requirements of a policy. -/
def demandsOf (g : PolicyGraph) (policy : Name) : Except Fault (List Demand) :=
  (g.requirements policy).map fun ls => ls.map fun l => ⟨policy, l⟩

/-- The requirements of all policies by their nodes. -/
def demandTable (g : PolicyGraph) : Except Fault (Grouping Demand) := do
  let parts ← (g.policyIds false).mapM g.demandsOf
  return Grouping.ofList (fun d => some d.literal.node.id) parts.flatten

/-- The candidate of two requirements that cannot hold together. -/
def exclusionCandidate (g : PolicyGraph) (subject : Name) (a b : Demand) :
    Except Fault Candidate := do
  let links ← g.linkedBy a.policy b.policy
  let requires := links.contains .requires
  let first ← a.literal.describe
  let second ← b.literal.describe
  let e ← a.literal.evidence
  let f ← b.literal.evidence
  return {
    kind := .exclusion
    severity := if requires then .high else .medium
    nodes := [a.literal.node.id, b.literal.node.id]
    policies := [a.policy, b.policy]
    clauses := [a.literal.clause, b.literal.clause]
    explanation := "Policies " ++ quoted a.policy ++ " and " ++ quoted b.policy ++
      " cannot both be satisfied: " ++ quotedText first ++ " excludes " ++ quotedText second
    evidence := [("variable", subject), ("conditions", .arr [e, f]),
      ("linked_by_requires", .bool requires)] }

/-- Two requirements on one variable. -/
def exclusionPair (g : PolicyGraph) (subject : Name) (a b : Demand) :
    Except Fault (List Candidate) := do
  if a.policy.same b.policy then return []
  let c ← a.literal.condition
  let d ← b.literal.condition
  if ← c.jointly d then return []
  return [← g.exclusionCandidate subject a b]

/-- All pairs of a list, each item with the later ones. -/
def pairsOf {α : Type} : List α → List (α × α)
  | [] => []
  | x :: r => r.map (fun y => (x, y)) ++ pairsOf r

/-- The requirements on one variable. -/
def exclusionsOn (g : PolicyGraph) (table : Grouping Demand) (subject : Name) :
    Except Fault (List Candidate) := do
  let ds := (g.conditionsOn subject).flatMap fun n => table.members n.id
  let parts ← (pairsOf ds).mapM fun p => g.exclusionPair subject p.1 p.2
  return parts.flatten

/-- Requirements of two policies that cannot hold together. -/
def exclusions (g : PolicyGraph) : Except Fault (List Candidate) := do
  let table ← g.demandTable
  let subjects ← g.subjects
  let parts ← subjects.mapM (g.exclusionsOn table)
  return parts.flatten

end Exclusions

section Circularities

/-- What a node of a cycle is called: its policy, or else its rule. -/
def cycleName (n : Node) : Name := if n.policy.truthy then n.policy else n.rule

/-- The texts of names, if all of them are texts. -/
def nameTexts (ns : List Name) : Except Fault (List String) :=
  match Name.texts? ns with
  | some ss => .ok ss
  | none => .error .wrongType

/-- The candidate of a cycle. -/
def circularityCandidate (g : PolicyGraph) (cycle : List Name) : Except Fault Candidate := do
  let nodes := cycle.filterMap g.node?
  let policies := (nodes.filter fun n => n.kind = .policy).map Node.policy
  let clauses ← policies.mapM g.clausesOf
  let names ← nameTexts (nodes.map cycleName)
  return {
    kind := .circularity
    severity := .critical
    nodes := cycle
    policies := policies
    clauses := clauses.flatten
    explanation := "Circular dependency " ++ String.intercalate " -> " (names ++ names.take 1) ++
      "; none of these policies can be evaluated"
    evidence := [("cycle", .arr cycle)]
    entities := false }

/-- Cycles of dependencies. -/
def circularities (g : PolicyGraph) : Except Fault (List Candidate) := do
  (← g.cycles).mapM g.circularityCandidate

end Circularities

section Thresholds

/-- The range of a condition, with its policy and the truth value it is to have. -/
structure Range where
  interval : Interval
  policy : Name
  literal : Literal

/-- The literals of the conditions of all policies, each with the first policy it belongs to. -/
def leafTable (g : PolicyGraph) : Except Fault (List Demand) :=
  (g.policyIds false).foldlM (fun acc policy => do
    let ps ← g.paths policy
    return ps.foldl (fun acc p =>
      if acc.any fun d => d.literal.node.id.alike p.leaf.node.id then acc
      else acc ++ [⟨policy, p.leaf⟩]) acc) []

/-- The range of a condition, if it belongs to a policy and has one. -/
def rangeOf? (table : List Demand) (n : Node) : Except Fault (Option Range) :=
  match table.find? fun d => d.literal.node.id.alike n.id with
  | none => .ok none
  | some d => (Literal.mk n true).condition.map fun c =>
      c.interval.map fun i => ⟨i, d.policy, d.literal⟩

/-- Whether one range begins before another one; of two that begin alike, by the node. -/
def Range.startsBefore (a b : Range) : Except Fault Bool :=
  if !a.interval.low.alike b.interval.low then .ok (a.interval.low.lt b.interval.low)
  else if a.interval.lowClosed != b.interval.lowClosed then .ok a.interval.lowClosed
  else if a.literal.node.id.alike b.literal.node.id then .ok false
  else Fault.ordered a.literal.node.id b.literal.node.id

/-- Whether a range begins somewhere and its node has a text: such ranges are ordered. -/
def Range.isOrderly (r : Range) : Bool :=
  !r.interval.low.isNaN &&
    match r.literal.node.id with
    | .str _ => true
    | _ => false

/-- Whether one range begins no later than another one. -/
def Range.startsNoLater (a b : Range) : Bool :=
  match Range.startsBefore b a with
  | .ok answer => !answer
  | .error _ => true

/-- Ranges in the order of their beginnings, unless their nodes have no order. -/
def arrangeRanges (rs : List Range) : Except Fault (List Range) :=
  if rs.all Range.isOrderly then .ok (rs.mergeSort Range.startsNoLater)
  else Sorting.sort Range.startsBefore rs

/-- The candidate of two ranges that meet. -/
def thresholdCandidate (subject : Name) (a b : Range) (overlap : Interval) :
    Except Fault Candidate := do
  let e ← b.literal.evidence
  let f ← a.literal.evidence
  return {
    kind := .incompatibleThreshold
    severity := if overlap.isPoint then .low else .high
    nodes := [a.literal.node.id, b.literal.node.id]
    policies := [a.policy, b.policy]
    clauses := [a.literal.clause, b.literal.clause]
    explanation := quoted subject ++ " in " ++ overlap.describe ++
      " qualifies under one of " ++ quoted b.policy ++ " / " ++ quoted a.policy ++
      " and disqualifies under the other"
    evidence := [("variable", subject), ("overlap", .str overlap.describe),
      ("conditions", .arr [e, f])] }

/-- Two ranges of which the second began earlier. -/
def thresholdPair (subject : Name) (a b : Range) : Except Fault (List Candidate) := do
  if b.policy.same a.policy || b.literal.positive == a.literal.positive then return []
  let overlap := a.interval.intersect b.interval
  if overlap.isEmpty then return []
  return [← thresholdCandidate subject a b overlap]

/-- Ranges in the order of their beginnings, against those that still reach them. -/
def sweepRanges (subject : Name) (active : List Range) : List Range → Except Fault (List Candidate)
  | [] => .ok []
  | a :: r => do
      let active := active.filter fun b => b.interval.reaches a.interval
      let parts ← active.mapM (thresholdPair subject a)
      let rest ← sweepRanges subject (active ++ [a]) r
      return parts.flatten ++ rest

/-- The ranges on one variable. -/
def thresholdsOn (g : PolicyGraph) (table : List Demand) (subject : Name) :
    Except Fault (List Candidate) := do
  let ranges ← (g.conditionsOn subject).mapM (rangeOf? table)
  sweepRanges subject [] (← arrangeRanges (ranges.filterMap id))

/-- Ranges that qualify for one policy and disqualify for another. -/
def incompatibleThresholds (g : PolicyGraph) : Except Fault (List Candidate) := do
  let table ← g.leafTable
  let subjects ← g.subjects
  let parts ← subjects.mapM (g.thresholdsOn table)
  return parts.flatten

end Thresholds

section Impossibilities

/-- Candidates found so far, and the entries and pairs of nodes that they are about. -/
structure TableSearch where
  seen : List (Nat × Name × Name) := []
  found : List Candidate := []

/-- Whether a pair was seen before under an entry. -/
def TableSearch.hasSeen (s : TableSearch) (entry : Nat) (a b : Name) : Bool :=
  s.seen.any fun p => p.1 = entry && p.2.1.alike a && p.2.2.alike b

/-- The literals that imply a constraint. -/
def implying (c : Constraint) (ls : List Literal) : Except Fault (List Literal) :=
  ls.filterM fun l => do
    let d ← l.condition
    d.implies (Condition.ofConstraint c)

/-- The candidate of two literals that an entry excludes. -/
def impossibilityCandidate (policy : Name) (i : Impossibility) (a b : Literal) :
    Except Fault Candidate := do
  let first ← a.describe
  let second ← b.describe
  let e ← a.evidence
  let f ← b.evidence
  return {
    kind := .impossibility
    severity := i.severity
    nodes := [a.node.id, b.node.id]
    policies := [policy]
    clauses := [a.clause, b.clause]
    explanation := "Policy " ++ quoted policy ++ " combines " ++ quotedText first ++ " with " ++
      quotedText second ++ ": " ++ i.reason
    evidence := [("rule", Json.strs [i.first.describe, i.second.describe]),
      ("conditions", .arr [e, f])] }

/-- Two literals that imply the two sides of an entry. -/
def impossibilityPair (policy : Name) (entry : Nat) (i : Impossibility) (s : TableSearch)
    (p : Literal × Literal) : Except Fault TableSearch := do
  let a := p.1.node.id
  let b := p.2.node.id
  if a.same b || s.hasSeen entry a b then return s
  let found ← impossibilityCandidate policy i p.1 p.2
  return ⟨s.seen ++ [(entry, a, b)], s.found ++ [found]⟩

/-- Whether some literal is on a variable. -/
def mentions (ls : List Literal) (subject : String) : Bool :=
  ls.any fun l => l.subject.same (.str subject)

/-- An entry against the literals of a path. -/
def impossibilityEntry (policy : Name) (ls : List Literal) (s : TableSearch)
    (entry : Impossibility × Nat) : Except Fault TableSearch := do
  let i := entry.1
  if !(mentions ls i.first.subject && mentions ls i.second.subject) then return s
  let firsts ← implying i.first ls
  if firsts.isEmpty then return s
  let seconds ← implying i.second ls
  (firsts.flatMap fun a => seconds.map fun b => (a, b)).foldlM
    (impossibilityPair policy entry.2 i) s

/-- A policy against a table. -/
def impossibilityPolicy (table : List Impossibility) (g : PolicyGraph) (s : TableSearch)
    (policy : Name) : Except Fault TableSearch := do
  (← g.paths policy).foldlM
    (fun s p => table.zipIdx.foldlM (impossibilityEntry policy p.literals) s) s

/-- Pairs of conditions on one path that an entry of a table excludes. -/
def impossibilities (table : List Impossibility) (g : PolicyGraph) :
    Except Fault (List Candidate) :=
  ((g.policyIds false).foldlM (impossibilityPolicy table g) {}).map TableSearch.found

end Impossibilities

/-- The candidates of a pass. -/
def candidates (table : List Impossibility) (g : PolicyGraph) :
    ConflictKind → Except Fault (List Candidate)
  | .contradiction => g.contradictions
  | .exclusion => g.exclusions
  | .circularity => g.circularities
  | .incompatibleThreshold => g.incompatibleThresholds
  | .impossibility => g.impossibilities table

end PolicyGraph
end Eligibility
