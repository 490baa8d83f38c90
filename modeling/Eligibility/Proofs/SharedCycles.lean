import Eligibility.Proofs.Resemblance
/-!
# Cycles of graphs with the same dependencies

**Cycles.**  A cycle is found once, from its least text, so that graphs with the same dependencies
have the same cycles in any order.

**Candidates.**  The candidate of a cycle names the policies on it and the clauses of these.  Both
are known from the set of what stands on the cycle.

**Results.**
* `mark_eq`: the candidates of one cycle leave the same.
* `passAgrees_circularity`: the passes over cycles agree over graphs with the same dependencies.
-/

namespace Eligibility

open Conflict

namespace PolicyGraph

variable {g h : PolicyGraph} {ks : List String}

/-- Whether two graphs have the same dependencies, and the same clauses and scopes of the policies
that something depends on. -/
structure SharesDependencies (g h : PolicyGraph) : Prop where
  dependsOn : ∀ s t, g.DependsOn s t ↔ h.DependsOn s t
  cites : ∀ s a, g.DependsOn s (Node.policyKey a) → g.HasPolicy a →
    ∀ n, g.Cites a n ↔ h.Cites a n
  scope : ∀ s t a b, g.DependsOn s (Node.policyKey a) → g.DependsOn t (Node.policyKey b) →
    g.HasPolicy a → g.HasPolicy b → (g.checkScope false (.str a) (.str b) = .ok () ↔
      h.checkScope false (.str a) (.str b) = .ok ())

theorem SharesDependencies.refl (g : PolicyGraph) : g.SharesDependencies g :=
  ⟨fun _ _ => Iff.rfl, fun _ _ _ _ _ => Iff.rfl, fun _ _ _ _ _ _ _ _ => Iff.rfl⟩

/-- Graphs with the same dependencies have the same cycles. -/
theorem SharesDependencies.isCycle_iff (hgh : g.SharesDependencies h) :
    IsCycle g.DependsOn ks ↔ IsCycle h.DependsOn ks :=
  ⟨fun hks => hks.imp fun a _ b _ hab => (hgh.dependsOn a b).mp hab,
    fun hks => hks.imp fun a _ b _ hab => (hgh.dependsOn a b).mpr hab⟩

end PolicyGraph

open PolicyGraph

variable {g h : PolicyGraph} {table : List Impossibility} {c d : Candidate} {ks ls : List String}

/-- The candidates of cycles through the same nodes leave the same. -/
theorem Candidate.IsOfCycle.mark_eq (hc : c.IsOfCycle g ks)
    (hd : d.IsOfCycle h ls) (hks : IsCycle g.DependsOn ks) (hgh : g.SharesDependencies h)
    (hclauses : ∀ n, g.hasClause n = h.hasClause n) (hsame : ∀ s, s ∈ ks ↔ s ∈ ls) :
    c.mark g = d.mark h := by
  have hprevious : ∀ a, Json.str a ∈ c.policies →
      (∃ s, g.DependsOn s (Node.policyKey a)) ∧ g.HasPolicy a := by
    intro a ha
    obtain ⟨s, hs, hpolicy⟩ := hc.sound.policies _ ha
    obtain rfl := Json.str.inj hs
    exact ⟨(hks.exists_previous ((hc.policies a).mp ha)).imp fun _ hs => hs.2, hpolicy⟩
  have hnodes : ∀ n, n ∈ c.nodes ↔ n ∈ d.nodes := by
    intro n
    rw [hc.nodes, hd.nodes, List.mem_map, List.mem_map]
    exact exists_congr fun s => and_congr_left fun _ => hsame s
  have hpolicies : ∀ n, n ∈ c.policies ↔ n ∈ d.policies := by
    intro n
    constructor
    · intro hn
      obtain ⟨a, rfl, -⟩ := hc.sound.policies n hn
      rwa [hd.policies, ← hsame, ← hc.policies]
    · intro hn
      obtain ⟨a, rfl, -⟩ := hd.sound.policies n hn
      rwa [hc.policies, hsame, ← hd.policies]
  have hcited : ∀ n, n ∈ c.clauses ↔ n ∈ d.clauses := by
    intro n
    rw [hc.clauses, hd.clauses]
    refine exists_congr fun a => ?_
    rw [← hsame]
    refine and_congr_right fun ha => ?_
    obtain ⟨⟨s, hs⟩, hpolicy⟩ := hprevious a ((hc.policies a).mpr ha)
    exact hgh.cites s a hs hpolicy n
  refine hc.sound.mark_eq_mark hd.sound (hc.severity.trans hd.severity.symm) hnodes
    (fun n => by rw [hcited, hclauses]) hpolicies fun a b ha hb => ?_
  obtain ⟨⟨s, hs⟩, hpolicy⟩ := hprevious a ha
  obtain ⟨⟨t, ht⟩, hpolicy'⟩ := hprevious b hb
  rw [hc.entities, hd.entities]
  exact hgh.scope s t a b hs ht hpolicy hpolicy'

namespace PolicyGraph

/-- The passes over cycles agree over graphs with the same dependencies and clauses. -/
theorem passAgrees_circularity (hg : g.IsLegible) (hh : h.IsLegible) (hnamed : g.HasNamedSources)
    (hnamed' : h.HasNamedSources) (hgh : g.SharesDependencies h)
    (hclauses : ∀ n, g.hasClause n = h.hasClause n) {kinds : List ConflictKind}
    (hk : .circularity ∈ kinds) :
    PassAgrees table (g.HasNoCollisionAmong table kinds) g h .circularity := by
  obtain ⟨cs, hcs, found, hnodup, hcycles, hcomplete, hall⟩ :=
    hg.exists_candidates_of_cycles hnamed
  obtain ⟨ds, hds, found', hnodup', hcycles', hcomplete', hall'⟩ :=
    hh.exists_candidates_of_cycles hnamed'
  have hfound : found.Perm found' := by
    refine (List.perm_ext_iff_of_nodup hnodup hnodup').mpr fun ks => ⟨fun hks => ?_, fun hks => ?_⟩
    · obtain ⟨hcycle, hbegins⟩ := hcycles ks hks
      obtain ⟨ls, hls, hrotated⟩ := hcomplete' ks (hgh.isCycle_iff.mp hcycle)
      rwa [← eq_of_isRotated hrotated (hcycles' ls hls).1.distinct (hcycles' ls hls).2 hbegins]
    · obtain ⟨hcycle, hbegins⟩ := hcycles' ks hks
      obtain ⟨ls, hls, hrotated⟩ := hcomplete ks (hgh.isCycle_iff.mpr hcycle)
      rwa [← eq_of_isRotated hrotated (hcycles ls hls).1.distinct (hcycles ls hls).2 hbegins]
  have hsound : ∀ c ∈ cs, c.IsSound g .circularity := fun c hc => by
    obtain ⟨ks, -, hof⟩ := Attempt.exists_left hall hc
    exact hof.sound
  have hsound' : ∀ d ∈ ds, d.IsSound h .circularity := fun d hd => by
    obtain ⟨ks, -, hof⟩ := Attempt.exists_left hall' hd
    exact hof.sound
  have hmarks : (cs.map (·.mark g)).Perm (ds.map (·.mark h)) := by
    obtain ⟨es, hes, hperm⟩ := List.perm_comp_forall₂ hfound hall'
    have hsame : es.map (·.mark h) = cs.map (·.mark g) := by
      have hcycle := (List.forall₂_and_left _ _).mpr ⟨fun ks hks => (hcycles ks hks).1, hall⟩
      refine Attempt.map_eq_map_of_forall₂ (Attempt.forall₂_join hcycle hes ?_)
      exact fun ks c d hc hd =>
        (hc.2.mark_eq hd hc.1 hgh hclauses fun _ => Iff.rfl).symm
    exact hsame ▸ hperm.map _
  refine ⟨cs, ds, hcs, hds, hsound, hsound', .of_perm hmarks fun hids => ?_⟩
  refine (tellsNodes_of_candidates (k := .circularity) hcs hk hids).isFunctional (List.Subset.refl _)
    fun c hc d hd hnodes => ?_
  obtain ⟨ks, hks, hof⟩ := Attempt.exists_left hall hc
  obtain ⟨ls, hls, hof'⟩ := Attempt.exists_left hall hd
  refine hof.mark_eq hof' (hcycles ks hks).1 (.refl g) (fun _ => rfl) fun s => ?_
  have hs := hnodes (.str s)
  rw [hof.nodes, hof'.nodes] at hs
  simpa using hs

end PolicyGraph
end Eligibility
