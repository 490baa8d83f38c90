import Eligibility.Proofs.Unions
/-!
# Graphs composed in another order

**Order.**  The order in which graphs are composed decides the order and the numbers of nodes and
edges, and which of several nodes that agree is kept.  Nothing of this is in a report: a composed
graph says of its policies what the graphs do, and it is connected as they are.

**Results.**
* `detect_composed`: reports about graphs composed in any order.
-/

namespace Eligibility
namespace PolicyGraph

variable {c c' g : PolicyGraph} {gs gs' : List PolicyGraph} {table : List Impossibility}

section Reports

/-- Graphs composed of the same graphs that share no rules make reports that say the same. -/
theorem IsUnionOf.detect_saysAs (h : c.IsUnionOf gs) (h' : c'.IsUnionOf gs') (hperm : gs'.Perm gs)
    (htable : ∀ i ∈ table, i.IsFitting) {passes : Option (List ConflictKind)} :
    ∃ r u, (c.detect table passes none).outcome = .ok r ∧
      (c'.detect table passes none).outcome = .ok u ∧ r.NamesAs u ∧
      (c.HasNoCollisionAmong table (selectedPasses passes) → r.SaysAs u) := by
  have hpart : ∀ g ∈ gs, ∃ q : Settings × Plan, g.IsDrawnFrom q.1 q.2 := by
    intro g hg
    obtain ⟨cfg, p, hp⟩ := h.isDrawn g hg
    exact ⟨(cfg, p), hp⟩
  obtain ⟨parts, hparts⟩ := Attempt.exists_forall₂ hpart
  obtain ⟨parts', hparts', hpermuted⟩ := List.perm_comp_forall₂ hperm hparts
  have hconnects := h.connects h' fun g => hperm.mem_iff.symm
  have htenets := h.hasTenets hparts
  have htenets' := h'.hasTenets hparts'
  have hresembles := htenets.resembles htenets' (hpermuted.flatMap_right _)
    (List.forall₂_same.mpr fun t _ => ⟨rfl, rfl, .refl _⟩) hconnects.policies hconnects.clauses
  exact PolicyGraph.detect_saysAs h.isLegible h'.isLegible h.hasNamedSources h'.hasNamedSources
    htenets.isOwned htenets'.isOwned htable hresembles
    (hconnects.sharesDependencies h.isLegible h'.isLegible)
    fun _ => hconnects.sharesScopes h.isLegible h'.isLegible

/-- Compiled graphs that share no rules and can be composed can be composed in any order.  The
reports about the composed graphs name the same conflicts and suppress as many candidates; unless
identifiers collide, they say the same. -/
theorem detect_composed
    (hgs : ∀ g ∈ gs, ∃ cfg payload, (RuleSet.compile cfg payload).outcome = .ok g)
    (hrules : gs.Pairwise SharesNoRule) (hc : compose gs = .ok c) (hperm : gs'.Perm gs)
    (htable : ∀ i ∈ table, i.IsFitting) {passes : Option (List ConflictKind)} :
    ∃ c' r u, compose gs' = .ok c' ∧ (c.detect table passes none).outcome = .ok r ∧
      (c'.detect table passes none).outcome = .ok u ∧ r.NamesAs u ∧
      (c.HasNoCollisionAmong table (selectedPasses passes) → r.SaysAs u) := by
  have hcompiled : ∀ g ∈ gs, ∃ cfg, g.IsCompiled cfg := by
    intro g hg
    obtain ⟨cfg, payload, hg⟩ := hgs g hg
    exact ⟨cfg, isCompiled_of_compile hg⟩
  have hdrawn : ∀ g ∈ gs, ∃ cfg p, g.IsDrawnFrom cfg p ∧ AreNamed p.documents := by
    intro g hg
    obtain ⟨cfg, payload, hg⟩ := hgs g hg
    exact ⟨cfg, exists_named_plan hg⟩
  obtain ⟨c', hc'⟩ := exists_compose_of_perm hcompiled hrules hperm hc
  by_cases hone : gs = [c]
  · -- a single graph is left as it is
    subst hone
    obtain rfl := List.perm_singleton.mp hperm
    obtain rfl := Except.ok.inj (hc.symm.trans hc')
    obtain ⟨cfg, p, hp, hnamed⟩ := hdrawn c (by simp)
    obtain ⟨r, hr, -⟩ := hp.isLegible.exists_reportOf fun k (_ : k ∈ selectedPasses passes) =>
      hp.passIsSound hnamed htable k
    exact ⟨c, r, r, hc, hr, hr, ⟨fun _ => Iff.rfl, rfl, rfl, rfl⟩, fun _ => ⟨rfl, rfl, rfl, rfl⟩⟩
  · have hcomposed := (isComposedOf_of_compose hcompiled hc).resolve_left hone
    have hcomposed' : c'.IsComposedOf gs' := by
      refine (isComposedOf_of_compose (fun g hg => hcompiled g (hperm.mem_iff.mp hg))
        hc').resolve_left fun hone' => hone ?_
      subst hone'
      obtain rfl := List.singleton_perm.mp hperm
      rw [Except.ok.inj (hc'.symm.trans hc)]
    have h : c.IsUnionOf gs := ⟨hcomposed, hdrawn, hrules⟩
    have h' : c'.IsUnionOf gs' := ⟨hcomposed', fun g hg => hdrawn g (hperm.mem_iff.mp hg),
      (hperm.pairwise_iff fun {_ _} => symm).mpr hrules⟩
    obtain ⟨r, u, hr, hu, hreports⟩ := h.detect_saysAs h' hperm htable
    exact ⟨c', r, u, hc', hr, hu, hreports⟩

end Reports

section Demands

/-- A policy with one rule that requires another policy. -/
def demanding (a b : String) : RuleSet where
  rules := [.node { id := a, subject := "status", operator := .eq, value := some (.text a),
                    clause := a, confidence := some Number.one } []]
  documents := [{ policy := a, prerequisites := [b], clauses := [{ id := a }] }]

def demandingPlan (a b : String) : Plan :=
  ⟨(demanding a b).documents, (demanding a b).rules.map (a, ·)⟩

/-- The payload of a policy with one rule that requires another policy. -/
def demandingPayload (a b : String) : Json :=
  .obj [("rules", .arr [.obj [("rule_id", .str a), ("variable", .str "status"),
      ("operator", .str "EQ"), ("value", .str a), ("clause_reference", .str a),
      ("confidence", .float Number.one)]]),
    ("documents", .arr [.obj [("policy_id", .str a), ("requires", .arr [.str b]),
      ("clauses", .arr [.obj [("clause_id", .str a)]])]])]

theorem exists_demanding {a b : String}
    (hpayload : RuleSet.ofPayload (demandingPayload a b) = .ok (demanding a b))
    (hs : (demanding a b).fault? .standard = none)
    (hplan : (demanding a b).checkedPlan = .ok (demandingPlan a b))
    (hfault : fault? ((demandingPlan a b).nodes .standard) (demandingPlan a b).edges = none) :
    ∃ g, (RuleSet.compile .standard (demandingPayload a b)).outcome = .ok g ∧
      g.IsDrawnFrom .standard (demandingPlan a b) := by
  obtain ⟨g, hvalid, hbuild, h⟩ := exists_build hs hplan hfault
  exact ⟨g, (outcome_compile hpayload hvalid).trans hbuild, h⟩

/-- Graphs of two policies with a rule each that require each other can be composed. -/
theorem exists_union : ∃ g h c : PolicyGraph,
    (RuleSet.compile .standard (demandingPayload "a" "b")).outcome = .ok g ∧
      (RuleSet.compile .standard (demandingPayload "b" "a")).outcome = .ok h ∧
      g.IsDrawnFrom .standard (demandingPlan "a" "b") ∧
      h.IsDrawnFrom .standard (demandingPlan "b" "a") ∧ compose [g, h] = .ok c ∧
      c.IsUnionOf [g, h] := by
  obtain ⟨g, hg, hp⟩ : ∃ g, (RuleSet.compile .standard (demandingPayload "a" "b")).outcome = .ok g ∧
      g.IsDrawnFrom .standard (demandingPlan "a" "b") :=
    exists_demanding rfl (by decide +kernel) rfl (by decide +kernel)
  obtain ⟨h, hh, hq⟩ : ∃ h, (RuleSet.compile .standard (demandingPayload "b" "a")).outcome = .ok h ∧
      h.IsDrawnFrom .standard (demandingPlan "b" "a") :=
    exists_demanding rfl (by decide +kernel) rfl (by decide +kernel)
  have hcompiled : ∀ x ∈ [g, h], ∃ cfg, x.IsCompiled cfg := by
    simpa using ⟨⟨_, isCompiled_of_compile hg⟩, _, isCompiled_of_compile hh⟩
  have htextual : ∀ x ∈ [g, h], x.IsTextual := fun x hx => (hcompiled x hx).elim fun _ => (·.isTextual)
  have hok : (composeNodes 0 [] [g, h]).isOk = true := by
    simp only [composeNodes, hp.nodes, hq.nodes]
    decide +kernel
  obtain ⟨c, hc⟩ := exists_compose_of_isOk htextual hok
  refine ⟨g, h, c, hg, hh, hp, hq, hc, (isComposedOf_of_compose hcompiled hc).resolve_left (by simp),
    ?_, List.pairwise_pair.mpr ?_⟩
  · simpa using ⟨⟨_, _, hp, by decide⟩, _, _, hq, by decide⟩
  · intro m hm n hn hmkind hnkind
    obtain ⟨x, hx, rfl⟩ := hp.eq_of_condition hm hmkind
    obtain ⟨y, hy, rfl⟩ := hq.eq_of_condition hn hnkind
    rw [List.mem_singleton.mp hx, List.mem_singleton.mp hy]
    simp [Rule.head]

/-- What the two policies depend on. -/
def mutualDemands : List (String × String) :=
  [(Node.policyKey "a", Node.policyKey "b"), (Node.policyKey "a", Node.conditionKey "a"),
    (Node.policyKey "b", Node.policyKey "a"), (Node.policyKey "b", Node.conditionKey "b")]

variable {h : PolicyGraph}

theorem IsUnionOf.mem_mutualDemands (hc : c.IsUnionOf [g, h])
    (hp : g.IsDrawnFrom .standard (demandingPlan "a" "b"))
    (hq : h.IsDrawnFrom .standard (demandingPlan "b" "a")) {s t : String} (hst : c.DependsOn s t) :
    (s, t) ∈ mutualDemands := by
  have hdraws : ∀ d ∈ (demandingPlan "a" "b").drafts ++ (demandingPlan "b" "a").drafts,
      d.relation.isDependency = true → (d.source, d.target) ∈ mutualDemands := by decide +kernel
  obtain ⟨r, hr, hjoins⟩ := dependsOn_iff_joins.mp hst
  obtain ⟨x, hx, hjoins⟩ := hc.joins_iff.mp hjoins
  rcases List.mem_pair.mp hx with rfl | rfl
  · obtain ⟨d, hd, rfl, rfl, rfl⟩ := hp.joins_iff.mp hjoins
    exact hdraws d (List.mem_append_left _ hd) hr
  · obtain ⟨d, hd, rfl, rfl, rfl⟩ := hq.joins_iff.mp hjoins
    exact hdraws d (List.mem_append_right _ hd) hr

/-- Every cycle passes both policies. -/
theorem mem_cycle_of_mutualDemands {ks : List String} {R : String → String → Prop}
    (hR : ∀ s t, R s t → (s, t) ∈ mutualDemands) (hks : IsCycle R ks) (s : String) :
    s ∈ ks ↔ s ∈ [Node.policyKey "a", Node.policyKey "b"] := by
  have hnext : ∀ s ∈ ks, ∃ t ∈ ks, (s, t) ∈ mutualDemands := by
    intro s hs
    obtain ⟨t, ht, hst⟩ := hks.exists_next hs
    exact ⟨t, ht, hR s t hst⟩
  have hsource : ∀ s ∈ ks, s ∈ [Node.policyKey "a", Node.policyKey "b"] := by
    intro s hs
    obtain ⟨t, -, hst⟩ := hnext s hs
    have hsources : ∀ d ∈ mutualDemands, d.1 ∈ [Node.policyKey "a", Node.policyKey "b"] := by decide
    exact hsources (s, t) hst
  refine ⟨hsource s, fun hs => ?_⟩
  have hother : ∀ d ∈ mutualDemands, d.2 ∈ [Node.policyKey "a", Node.policyKey "b"] →
      ∀ s ∈ [Node.policyKey "a", Node.policyKey "b"], s = d.1 ∨ s = d.2 := by decide
  obtain ⟨x, r, rfl, -⟩ := hks.closed
  obtain ⟨t, ht, hxt⟩ := hnext x List.mem_cons_self
  rcases hother _ hxt (hsource t ht) s hs with rfl | rfl
  · exact List.mem_cons_self
  · exact ht

/-- A cycle of policies of two graphs is reported whichever graph comes first. -/
theorem detect_composed_cycle : ∃ g h c c' r u,
    (RuleSet.compile .standard (demandingPayload "a" "b")).outcome = .ok g ∧
      (RuleSet.compile .standard (demandingPayload "b" "a")).outcome = .ok h ∧
      compose [g, h] = .ok c ∧ compose [h, g] = .ok c' ∧
      (c.detect Impossibility.standard (some [.circularity]) none).outcome = .ok r ∧
      (c'.detect Impossibility.standard (some [.circularity]) none).outcome = .ok u ∧
      NamesCycle r ["a", "b"] ∧ r.SaysAs u := by
  obtain ⟨g, h, c, hg, hh, hp, hq, hc, hunion⟩ := exists_union
  have hcycles : ∀ ks, IsCycle c.DependsOn ks → ∀ s, s ∈ ks ↔
      s ∈ [Node.policyKey "a", Node.policyKey "b"] := fun ks hks =>
    mem_cycle_of_mutualDemands (fun _ _ => hunion.mem_mutualDemands hp hq) hks
  have hids : c.HasNoCollisionAmong Impossibility.standard
      (selectedPasses (some [.circularity])) := by
    have hall : ∀ d, c.Gives Impossibility.standard .circularity d → d.kind = .circularity ∧
        ∀ n, n ∈ d.nodes ↔ n ∈ [Node.policyKey "a", Node.policyKey "b"].map Json.str := by
      intro d hd
      obtain ⟨ks, hks, hof⟩ := hunion.isLegible.isOfCycle hunion.hasNamedSources hd
      refine ⟨hof.sound.kind, fun n => ?_⟩
      rw [hof.nodes]
      simp only [List.mem_map, hcycles ks hks]
    exact hasNoCollisionAmong_singleton hall
  have hcompiled : ∀ x ∈ [g, h], ∃ cfg payload, (RuleSet.compile cfg payload).outcome = .ok x := by
    simpa using ⟨⟨_, _, hg⟩, _, _, hh⟩
  have hperm : [h, g].Perm [g, h] := .swap _ _ _
  obtain ⟨c', r, u, hc', hr, hu, -, hsays⟩ := detect_composed hcompiled hunion.rules hc hperm
    Impossibility.standard_fits
  have hrequires : c.Requires "a" "b" ∧ c.Requires "b" "a" :=
    ⟨hunion.joins_iff.mpr ⟨g, by simp, hp.joins_iff.mpr (by decide +kernel)⟩,
      hunion.joins_iff.mpr ⟨h, by simp, hq.joins_iff.mpr (by decide +kernel)⟩⟩
  have hcycle : IsCycle c.Requires ["a", "b"] :=
    ⟨by decide, "a", ["b"], rfl, by simpa using hrequires⟩
  obtain ⟨r', hr', hreport⟩ := hunion.isLegible.exists_reportOf
    fun k (_ : k ∈ selectedPasses (some [.circularity])) =>
      hunion.isLegible.passIsSound hunion.hasNamedSources Impossibility.standard_fits k
  obtain rfl := Except.ok.inj (hr.symm.trans hr')
  have hlinked := isLinked_of_requires hrequires.1
  refine ⟨g, h, c, c', r, u, hg, hh, hc, hc', hr, hu, ?_, hsays hids⟩
  refine hreport.namesCycle_of_isLinked hunion.isLegible hunion.hasNamedSources
    Impossibility.standard_fits hids (List.mem_singleton_self _) hcycle fun x hx y hy hne => ?_
  rcases List.mem_pair.mp hx with rfl | rfl <;> rcases List.mem_pair.mp hy with rfl | rfl
  · exact absurd rfl hne
  · exact hlinked
  · exact hlinked.symm
  · exact absurd rfl hne

end Demands

end PolicyGraph
end Eligibility
