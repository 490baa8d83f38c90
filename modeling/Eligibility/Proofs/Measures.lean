import Eligibility.Proofs.Surveys
/-!
# Measures of compiled graphs

**Counts.**  What is counted over the nodes and edges of a compiled graph is what the rule set
holds: of one policy its own tally, of all policies the tally of the whole rule set.

**Results.**
* `IsDrawnFrom.measuresAs`: the measure of policies.
* `RuleSet.exists_build_measures`: the measures of the graph that is built of a rule set.
-/

namespace Eligibility
open Attempt

/-- Whether the counts among factors are those of a tally. -/
structure Factors.CountAs (m : Factors) (round : Rat → Rat) (t : Tally) : Prop where
  conditions : m.conditions = t.comparisons
  density : m.density =
    if t.clauses = 0 then 0 else round ((t.operators : Rat) / (t.clauses : Rat))
  depth : m.depth = t.depth
  crossReferences : m.crossReferences = t.links
  ambiguities : m.ambiguities = t.flags

/-- Whether policies are measured, whatever a reader of texts says, with the counts of a tally. -/
structure PolicyGraph.MeasuresAs (g : PolicyGraph) (policies : List Name) (t : Tally) : Prop where
  measured : ∀ round weights reader, IsNumeric reader →
    ∃ x, g.measure round weights reader policies = .ok x
  counts : ∀ round weights reader m n, g.measure round weights reader policies = .ok (m, n) →
    m.CountAs round t ∧ n = t.clauses

theorem Tally.total_singleton (t : Tally) : Tally.total [t] = t := by
  simp [Tally.total]

/-- The deepest of several groups of trees. -/
theorem RuleSet.depthOf_flatMap {α : Type} (f : α → List Rule) (xs : List α) :
    Rule.depthOf (xs.flatMap f) = (xs.map fun x => Rule.depthOf (f x)).foldr max 0 := by
  refine eq_of_forall_ge_iff fun n => ?_
  simp only [depthOf_le_iff, foldr_max_le_iff, List.forall_mem_flatMap, List.forall_mem_map]

namespace PolicyGraph

variable {cfg : Settings} {g : PolicyGraph} {s : RuleSet} {p : Plan} {as : List String}

section Nodes

variable (cfg s p)

/-- The nodes of the rules of policies. -/
def conditionNodes (as : List String) : List Node :=
  as.flatMap fun a => (s.rulesOf a).map fun r => Plan.conditionNode cfg a r.head

/-- The nodes of the clauses of policies. -/
def clauseNodes (as : List String) : List Node :=
  as.flatMap fun a => (RuleSet.plannedClauses p a).map (Plan.clauseNode a)

theorem flatMap_nodes_ofTree (a : String) (rs : List Rule) :
    (rs.map (Reach.ofTree cfg a)).flatMap Reach.nodes =
      (Rule.walkAll rs).map fun r => Plan.conditionNode cfg a r.head := by
  rw [List.flatMap_map, Rule.walkAll_eq_flatMap, List.map_flatMap]
  rfl

/-- The nodes of rules of a kind are counted over the rules. -/
theorem length_filter_conditionNodes {P : Node → Bool} {Q : Head → Bool}
    (h : ∀ a k, P (Plan.conditionNode cfg a k) = Q k) (as : List String) :
    ((conditionNodes cfg s as).filter P).length =
      (as.map fun a => (s.rulesOf a).countP fun r => Q r.head).sum := by
  rw [← List.countP_eq_length_filter, conditionNodes, List.countP_flatMap]
  simp only [Function.comp_def, List.countP_map, h]

variable {s p}

/-- The nodes of clauses of a kind are counted over the clauses. -/
theorem length_filter_clauseNodes (hs : s.IsAccepted) (hp : s.plan = .ok p) {P : Node → Bool}
    {Q : Clause → Bool} (h : ∀ a c, P (Plan.clauseNode a c) = Q c) (as : List String) :
    ((clauseNodes p as).filter P).length =
      (as.map fun a => (s.clausesOwnedBy a).countP Q).sum := by
  rw [← List.countP_eq_length_filter, clauseNodes, List.countP_flatMap]
  simp only [Function.comp_def, List.countP_map, h, (RuleSet.plannedClauses_perm hs hp).countP_eq]

theorem length_clauseNodes (hs : s.IsAccepted) (hp : s.plan = .ok p) (as : List String) :
    (clauseNodes p as).length = (as.map fun a => (s.clausesOwnedBy a).length).sum := by
  rw [clauseNodes, List.length_flatMap]
  simp only [List.length_map, (RuleSet.plannedClauses_perm hs hp).length_eq]

variable (s)

theorem length_leaves (as : List String) :
    ((conditionNodes cfg s as).filter Node.isLeaf).length =
      (as.map fun a => (s.tally a cfg).comparisons).sum :=
  length_filter_conditionNodes cfg s (Plan.conditionNode_isLeaf cfg) as

theorem length_compounds (as : List String) :
    ((conditionNodes cfg s as).filter Node.isCompound).length =
      (as.map fun a => (s.tally a cfg).operators).sum :=
  length_filter_conditionNodes cfg s (Plan.conditionNode_isCompound cfg) as

variable {s}

/-- The flagged nodes of policies are their flagged rules and clauses. -/
theorem flagged_eq (hs : s.IsAccepted) (hp : s.plan = .ok p) (as : List String) :
    flagged "low_confidence" (conditionNodes cfg s as) + flagged "ambiguous" (clauseNodes p as) =
      (as.map fun a => (s.tally a cfg).flags).sum := by
  rw [flagged, flagged, length_filter_conditionNodes cfg s (Plan.conditionNode_low cfg),
    length_filter_clauseNodes hs hp Plan.clauseNode_ambiguous, ← List.sum_map_add]
  rfl

theorem length_linkDrafts (a : String) : (s.linkDrafts a).length = (s.tally a cfg).links := by
  simp [RuleSet.linkDrafts, RuleSet.tally, Nat.add_assoc]

end Nodes

section Surveys

/-- The trees and the clauses of policies. -/
theorem IsDrawnFrom.surveyTrees_eq (h : g.IsDrawnFrom cfg p) (hs : s.IsAccepted)
    (hp : s.plan = .ok p) (has : ∀ a ∈ as, g.HasPolicy a) :
    (as.map Json.str).mapM g.surveyTrees = .ok (as.map fun a =>
      ((s.treesOf a).map (Reach.ofTree cfg a),
        (RuleSet.plannedClauses p a).map (Plan.clauseNode a))) := by
  rw [List.mapM_map]
  refine mapM_eq_ok_map fun a ha => ?_
  rw [Function.comp_apply, surveyTrees, h.reachOf_eq hs hp (has a ha), ok_bind,
    (h.clausesOf_planned hs hp (has a ha)).2]
  rfl

/-- The links of policies, and how many clauses they have. -/
theorem IsDrawnFrom.surveyLinks_eq (h : g.IsDrawnFrom cfg p) (hs : s.IsAccepted)
    (hp : s.plan = .ok p) (has : ∀ a ∈ as, g.HasPolicy a) :
    (as.map Json.str).mapM g.surveyLinks = .ok (as.map fun a =>
      ((s.linkDrafts a).length, (s.clausesOwnedBy a).length)) := by
  rw [List.mapM_map]
  refine mapM_eq_ok_map fun a ha => ?_
  rw [Function.comp_apply, surveyLinks, h.linkCount_eq hs hp (has a ha), ok_bind,
    (h.clausesOf_planned hs hp (has a ha)).1, ok_bind, List.length_map,
    (RuleSet.plannedClauses_perm hs hp).length_eq]
  rfl

/-- The readabilities of clauses are found. -/
theorem exists_readabilities {reader : Option ReadabilityReader} (hreader : IsNumeric reader)
    (weights : Settings) (as : List String) :
    ∃ xs, (clauseNodes p as).mapM (clauseReadability weights reader) = .ok xs := by
  have hfound : ∀ n ∈ clauseNodes p as, ∃ x, clauseReadability weights reader n = .ok x := by
    intro n hn
    obtain ⟨a, -, hn⟩ := List.mem_flatMap.mp hn
    obtain ⟨c, -, rfl⟩ := List.mem_map.mp hn
    unfold clauseReadability
    rcases exists_number_of_statedReadability hreader a c with hnull | ⟨x, hx⟩
    · exact ⟨_, by rw [hnull]⟩
    · split
      · exact ⟨_, rfl⟩
      · exact ⟨_, by rw [hx, map_ok]⟩
  obtain ⟨xs, hxs, -⟩ := exists_mapM fun n hn => (hfound n hn).imp fun x hx => And.intro hx hx
  exact ⟨xs, hxs⟩

/-- The measure of policies, given the readabilities of their clauses. -/
theorem IsDrawnFrom.measure_eq (h : g.IsDrawnFrom cfg p) (hs : s.IsAccepted)
    (hp : s.plan = .ok p) (has : ∀ a ∈ as, g.HasPolicy a) (round : Rat → Rat) (weights : Settings)
    (reader : Option ReadabilityReader) :
    g.measure round weights reader (as.map .str) =
      ((clauseNodes p as).mapM (clauseReadability weights reader)).map fun xs =>
        let t := Tally.total (as.map fun a => s.tally a cfg)
        ({ conditions := t.comparisons
           density := if t.clauses = 0 then 0 else round ((t.operators : Rat) / (t.clauses : Rat))
           depth := t.depth
           crossReferences := t.links
           readability := mean round xs
           ambiguities := t.flags }, t.clauses) := by
  have hconditions : (as.flatMap fun a => (s.treesOf a).map (Reach.ofTree cfg a)).flatMap
      Reach.nodes = conditionNodes cfg s as := by
    rw [List.flatMap_assoc]
    exact List.flatMap_congr fun a _ => flatMap_nodes_ofTree cfg a _
  have hdepth : ((as.flatMap fun a => (s.treesOf a).map (Reach.ofTree cfg a)).map
      Reach.depth).foldl Nat.max 0 =
        (as.map fun a => Rule.depthOf (s.treesOf a)).foldr max 0 := by
    rw [← RuleSet.depthOf_flatMap, ← foldl_depth, List.map_flatMap, List.map_flatMap]
    simp only [List.map_map, Function.comp_def, Reach.ofTree]
  have hsum : ∀ ns : List Nat, ns.foldr (fun m n => m + n) 0 = ns.sum := fun _ => rfl
  rw [measure, h.surveyTrees_eq hs hp has, ok_bind, h.surveyLinks_eq hs hp has, ok_bind]
  simp only [List.flatMap_map, hconditions, hdepth]
  change ((clauseNodes p as).mapM (clauseReadability weights reader)) >>= _ = _
  cases (clauseNodes p as).mapM (clauseReadability weights reader) with
  | error f => rfl
  | ok xs =>
      rw [ok_bind, map_ok, ← clauseNodes]
      simp only [length_leaves, length_compounds, List.isEmpty_iff_length_eq_zero,
        length_clauseNodes hs hp, flagged_eq cfg hs hp, length_linkDrafts cfg, hsum, List.map_map,
        Function.comp_def, Tally.total]
      rfl

/-- The measure of policies is the total of their tallies. -/
theorem IsDrawnFrom.measuresAs (h : g.IsDrawnFrom cfg p) (hs : s.IsAccepted)
    (hp : s.plan = .ok p) (has : ∀ a ∈ as, g.HasPolicy a) :
    g.MeasuresAs (as.map .str) (Tally.total (as.map fun a => s.tally a cfg)) := by
  constructor
  · intro round weights reader hreader
    obtain ⟨xs, hxs⟩ := exists_readabilities (p := p) hreader weights as
    exact ⟨_, by rw [h.measure_eq hs hp has, hxs, map_ok]⟩
  · intro round weights reader m n hm
    rw [h.measure_eq hs hp has] at hm
    obtain ⟨xs, -, heq⟩ := map_eq_ok.mp hm
    obtain ⟨rfl, rfl⟩ := Prod.mk.inj heq
    exact ⟨⟨rfl, rfl, rfl, rfl, rfl⟩, rfl⟩

end Surveys

end PolicyGraph

namespace RuleSet

/-- What is measured of the graph of an accepted rule set is what the rule set holds: of each
policy its tally, of all of them the total, in which all rules and clauses are counted once. -/
theorem exists_build_measures {cfg : Settings} {s : RuleSet} (hs : s.validate cfg = .ok s) :
    ∃ g, (s.build cfg).outcome = .ok g ∧
      (∀ a, g.HasPolicy a → g.MeasuresAs [.str a] (s.tally a cfg)) ∧
      ∃ t, t = Tally.total (s.policies.map fun a => s.tally a cfg) ∧ s.IsCountedBy cfg t ∧
        g.MeasuresAs (g.policyIds false) t := by
  obtain ⟨p, g, hp, hg, hdrawn, -⟩ := exists_build_of_validate hs
  have haccepted := (isAccepted_of_validate hs).1
  refine ⟨g, hg, fun a ha => ?_, _, rfl, total_tally haccepted cfg, ?_⟩
  · have hpolicies : ∀ b ∈ [a], g.HasPolicy b := by simpa using ha
    have hone := hdrawn.measuresAs haccepted hp hpolicies
    rwa [List.map_singleton, List.map_singleton, Tally.total_singleton] at hone
  · have hdeclared : ∀ a ∈ s.policies, g.HasPolicy a := by
      intro a ha
      rw [← Plan.policies_eq hp] at ha
      obtain ⟨d, hd, rfl⟩ := List.mem_map.mp ha
      exact hdrawn.hasPolicy hd
    have hids : g.policyIds false = s.policies.map .str := by
      rw [PolicyGraph.policyIds, hdrawn.policies_eq_map, ← Plan.policies_eq hp, List.map_map,
        List.map_map]
      exact List.map_congr_left fun d _ => Plan.policyNode_policy cfg d _
    exact hids ▸ hdrawn.measuresAs haccepted hp hdeclared

/-- One policy of the shared rule set has its tree, and the other one of its clauses. -/
theorem exists_build_measures_shared : shared.validate .standard = .ok shared ∧
    ∃ g, (shared.build .standard).outcome = .ok g ∧
      g.MeasuresAs [.str "p"] ⟨2, 2, 3, 0, 2, 1⟩ ∧
      g.MeasuresAs (g.policyIds false) ⟨2, 2, 3, 0, 2, 2⟩ := by
  have hfault : shared.fault? .standard = none := by decide +kernel
  have hvalid : shared.validate .standard = .ok shared := by rw [validate, hfault]
  obtain ⟨g, hg, hone, t, ht, -, hall⟩ := exists_build_measures hvalid
  obtain ⟨p, g', hp, hg', hdrawn, -⟩ := exists_build_of_validate hvalid
  obtain rfl := Except.ok.inj (hg.symm.trans hg')
  have hpolicy : g.HasPolicy "p" := by
    obtain ⟨d, hd, hname⟩ : ∃ d ∈ p.documents, d.policy = "p" := by
      rw [← List.mem_map, Plan.policies_eq hp]
      decide
    exact hname ▸ hdrawn.hasPolicy hd
  have hfirst : shared.tally "p" .standard = ⟨2, 2, 3, 0, 2, 1⟩ := by decide +kernel
  have htotal : t = ⟨2, 2, 3, 0, 2, 2⟩ := by
    rw [ht]
    decide +kernel
  exact ⟨hvalid, g, hg, hfirst ▸ hone "p" hpolicy, htotal ▸ hall⟩

end RuleSet
end Eligibility
