import Eligibility.Proofs.SharedCycles
import Eligibility.Proofs.TableSearches
import Eligibility.Proofs.Tenets
import Eligibility.Proofs.Thresholds
/-!
# Graphs whose reports say the same

**Connections.**  Which policies share a scope, what depends on what and which clauses a policy has
are told by the ends and the relations of edges.  The numbers of edges and their order do not
matter.

**Reports.**  Graphs that resemble each other and have the same connections make reports that say
the same, whatever passes are selected.

**Results.**
* `Connects.sharesScopes`, `Connects.sharesDependencies`: what connections tell.
* `detect_saysAs`: reports of graphs that resemble each other.
-/

namespace Eligibility

/-- Whether a plan draws an edge of a relation from one text to another one. -/
def Plan.Draws (p : Plan) (r : Relation) (s t : String) : Prop :=
  ∃ d ∈ p.drafts, d.relation = r ∧ d.source = s ∧ d.target = t

instance (p : Plan) (r : Relation) (s t : String) : Decidable (p.Draws r s t) :=
  inferInstanceAs (Decidable (∃ d ∈ p.drafts, d.relation = r ∧ d.source = s ∧ d.target = t))

namespace PolicyGraph

variable {g h : PolicyGraph} {table : List Impossibility}

/-- Whether an edge of a relation leads from one text to another one. -/
def Joins (g : PolicyGraph) (r : Relation) (s t : String) : Prop :=
  ∃ e ∈ g.edges, e.relation = r ∧ e.source = .str s ∧ e.target = .str t

/-- Whether two graphs have the same policies and clauses, and edges of the same relations between
the same nodes. -/
structure Connects (g h : PolicyGraph) : Prop where
  joins : ∀ r s t, g.Joins r s t ↔ h.Joins r s t
  policies : ∀ a, g.HasPolicy a ↔ h.HasPolicy a
  clauses : ∀ n, g.hasClause n = h.hasClause n
  entities : ∀ a, g.HasPolicy a → g.entityOf (.str a) = h.entityOf (.str a)

section Connections

/-- The edges of a compiled graph are what its plan draws. -/
theorem IsDrawnFrom.joins_iff {cfg : Settings} {p : Plan} (hg : g.IsDrawnFrom cfg p) {r : Relation}
    {s t : String} : g.Joins r s t ↔ p.Draws r s t := by
  constructor
  · rintro ⟨e, he, hr, hs, ht⟩
    obtain ⟨n, d, hd, rfl⟩ := hg.mem_edges.mp he
    exact ⟨d, Plan.mem_drawn.mp (List.mem_of_getElem? hd), hr, Json.str.inj hs, Json.str.inj ht⟩
  · rintro ⟨d, hd, rfl, rfl, rfl⟩
    obtain ⟨n, he⟩ := hg.exists_edge hd
    exact ⟨_, he, rfl, rfl, rfl⟩

theorem dependsOn_iff_joins {s t : String} :
    g.DependsOn s t ↔ ∃ r : Relation, r.isDependency = true ∧ g.Joins r s t := by
  constructor
  · rintro ⟨e, he, hr, hs, ht⟩
    exact ⟨e.relation, hr, e, he, rfl, hs, ht⟩
  · rintro ⟨r, hr, e, he, rfl, hs, ht⟩
    exact ⟨e, he, hr, hs, ht⟩

theorem isLinkedBy_iff_joins {r : Relation} {a b : String} :
    g.IsLinkedBy r a b ↔ r.isLink = true ∧
      (g.Joins r (Node.policyKey a) (Node.policyKey b) ∨
        g.Joins r (Node.policyKey b) (Node.policyKey a)) := by
  constructor
  · rintro ⟨e, he, rfl, hlink, ⟨hs, ht⟩ | ⟨hs, ht⟩⟩
    · exact ⟨hlink, .inl ⟨e, he, rfl, hs, ht⟩⟩
    · exact ⟨hlink, .inr ⟨e, he, rfl, hs, ht⟩⟩
  · rintro ⟨hlink, ⟨e, he, rfl, hs, ht⟩ | ⟨e, he, rfl, hs, ht⟩⟩
    · exact ⟨e, he, rfl, hlink, .inl ⟨hs, ht⟩⟩
    · exact ⟨e, he, rfl, hlink, .inr ⟨hs, ht⟩⟩

/-- A policy has the clauses whose nodes it contains. -/
theorem IsLegible.cites_iff (hg : g.IsLegible) {a : String}
    (ha : g.hasNode (.str (Node.policyKey a)) = true) {n : Name} :
    g.Cites a n ↔ ∃ c, n = .str c ∧ g.hasClause (.str c) = true ∧
      g.Joins .contains (Node.policyKey a) (Node.clauseKey c) := by
  obtain ⟨cs, hcs, hspec⟩ := hg.exists_clausesOf ha
  have hcites : g.Cites a n ↔ ∃ c ∈ cs, .str c = n := by
    rw [Cites, hcs]
    simp
  rw [hcites]
  constructor
  · rintro ⟨c, hc, rfl⟩
    obtain ⟨e, he, hs, hr, m, hm, hown⟩ := (hspec c).mp hc
    obtain ⟨hnode, hkind⟩ := Option.filter_eq_some_iff.mp hm
    obtain ⟨c', hown', hid⟩ := hg.clause m (mem_of_node? hnode) (by simpa using hkind)
    obtain rfl : c = c' := Json.str.inj (hown.symm.trans hown')
    obtain ⟨s, t, -, ht⟩ := hg.ends e he
    rw [ht] at hnode
    have hkey := (node?_spec hnode).2
    rw [hid] at hkey
    obtain rfl := Json.str.inj hkey
    exact ⟨c, rfl, hasNode_of_node? hnode, e, he, hr, hs, ht⟩
  · rintro ⟨c, rfl, hclause, e, he, hr, hs, ht⟩
    obtain ⟨m, hm⟩ := Option.isSome_iff_exists.mp hclause
    have hm : g.node? (.str (Node.clauseKey c)) = some m := hm
    obtain ⟨hmem, hid⟩ := node?_spec hm
    have hkind := hg.clauseKey m hmem c hid
    obtain ⟨c', hown, hid'⟩ := hg.clause m hmem hkind
    obtain rfl : c = c' := Node.clauseKey_inj.mp (Json.str.inj (hid.symm.trans hid'))
    exact ⟨c, (hspec c).mpr ⟨e, he, hs, hr, m, targetOf?_eq_some (ht ▸ hm) hkind, hown⟩, rfl⟩

/-- Policies share their scopes in graphs with the same connections. -/
theorem Connects.sharesScopes (hgh : g.Connects h) (hg : g.IsLegible) (hh : h.IsLegible) :
    g.SharesScopes h := by
  have hlinked : ∀ r a b, g.IsLinkedBy r a b ↔ h.IsLinkedBy r a b := fun r a b => by
    rw [isLinkedBy_iff_joins, isLinkedBy_iff_joins, hgh.joins, hgh.joins]
  refine ⟨fun entities a b ha hb => ?_, hlinked .requires⟩
  rw [hg.checkScope_eq_ok_iff entities ha hb, hh.checkScope_eq_ok_iff entities
    ((hgh.policies a).mp ha) ((hgh.policies b).mp hb), hgh.entities a ha, hgh.entities b hb,
    isLinked_iff_exists, isLinked_iff_exists]
  simp only [hlinked]

/-- Graphs with the same connections have the same dependencies. -/
theorem Connects.sharesDependencies (hgh : g.Connects h) (hg : g.IsLegible) (hh : h.IsLegible) :
    g.SharesDependencies h := by
  have hscopes := hgh.sharesScopes hg hh
  have hnode : ∀ {g : PolicyGraph} {a : String}, g.HasPolicy a →
      g.hasNode (.str (Node.policyKey a)) = true := fun ⟨_, hm, _⟩ => hasNode_of_node? hm
  refine ⟨fun s t => ?_, fun s a _ ha n => ?_,
    fun s t a b _ _ ha hb => hscopes.scope false a b ha hb⟩
  · rw [dependsOn_iff_joins, dependsOn_iff_joins]
    simp only [hgh.joins]
  · rw [hg.cites_iff (hnode ha), hh.cites_iff (hnode ((hgh.policies a).mp ha))]
    simp only [hgh.clauses, hgh.joins]

end Connections

section Reports

/-- Graphs that resemble each other and have the same dependencies make reports that name the same
conflicts, if the same policies share scopes or no pass compares policies.  Unless identifiers
collide, the reports say the same. -/
theorem detect_saysAs (hg : g.IsLegible) (hh : h.IsLegible) (hnamed : g.HasNamedSources)
    (hnamed' : h.HasNamedSources) (howned : g.IsOwned) (howned' : h.IsOwned)
    (htable : ∀ i ∈ table, i.IsFitting) (hgh : g.Resembles h) (hdepends : g.SharesDependencies h)
    {passes : Option (List ConflictKind)}
    (hscopes : .exclusion ∈ selectedPasses passes ∨
      .incompatibleThreshold ∈ selectedPasses passes → g.SharesScopes h) :
    ∃ r s, (g.detect table passes none).outcome = .ok r ∧
      (h.detect table passes none).outcome = .ok s ∧ r.NamesAs s ∧
      (g.HasNoCollisionAmong table (selectedPasses passes) → r.SaysAs s) := by
  refine exists_saysAs hg hh fun k hk => ?_
  cases k with
  | contradiction => exact passAgrees_contradiction hg hh hgh howned hk
  | exclusion => exact passAgrees_exclusion hg hh hgh (hscopes (.inl hk)) howned howned' hk
  | circularity => exact passAgrees_circularity hg hh hnamed hnamed' hdepends hgh.clauses hk
  | incompatibleThreshold =>
      exact passAgrees_incompatibleThreshold hg hh hgh (hscopes (.inr hk)) howned howned' _
  | impossibility => exact passAgrees_impossibility hg hh hgh howned htable hk

end Reports

end PolicyGraph
end Eligibility
