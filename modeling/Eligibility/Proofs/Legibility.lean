import Eligibility.Proofs.Building
import Eligibility.Proofs.Commitments
import Eligibility.Proofs.Paths
/-!
# Graphs that can be read

**Legibility.**  A graph can be read where its nodes are named by different texts, its conditions
without operands are comparisons, and every declared policy has its requirements and its paths.
Nothing more is needed to look for conflicts: the passes do not ask where a graph comes from.

**Origin.**  Compiled graphs can be read.

**Results.**
* `IsDrawnFrom.isLegible`: compiled graphs can be read.
* `IsLegible.node?_of_mem`: a node is found by its text.
* `IsLegible.exists_clausesOf`: the clauses of a policy.
-/

namespace Eligibility

namespace Draft

/-- Edges that are drawn after one another have different texts as identifiers. -/
theorem number_ids (n : Nat) (ds : List Draft) :
    (∀ e ∈ number n ds, ∃ k, e.id = .str k) ∧
      (number n ds).Pairwise fun a b => a.id ≠ b.id := by
  induction ds generalizing n with
  | nil => simp [number]
  | cons d r ih =>
      obtain ⟨htexts, hdistinct⟩ := ih (n + 1)
      refine ⟨List.forall_mem_cons.mpr ⟨⟨_, rfl⟩, htexts⟩,
        List.pairwise_cons.mpr ⟨fun e he => ?_, hdistinct⟩⟩
      obtain ⟨i, d', -, rfl⟩ := mem_number.mp he
      intro heq
      have := Edge.numbered_inj heq
      omega

end Draft

namespace PolicyGraph

/-- A graph whose nodes are named by texts, whose conditions without operands are comparisons, and
whose declared policies have requirements and paths. -/
structure IsLegible (g : PolicyGraph) : Prop where
  ids : ∀ n ∈ g.nodes, ∃ k, n.id = .str k
  distinct : (g.nodes.map Node.id).Nodup
  leaf : ∀ n ∈ g.nodes, n.isLeaf = true → n.IsComparison
  policy : ∀ n ∈ g.nodes, n.kind = .policy →
    ∃ a, n.policy = .str a ∧ n.id = .str (Node.policyKey a)
  key : ∀ n ∈ g.nodes, ∀ a, n.id = .str (Node.policyKey a) → n.kind = .policy
  clause : ∀ n ∈ g.nodes, n.kind = .clause →
    ∃ c, n.ownClause = .str c ∧ n.id = .str (Node.clauseKey c)
  clauseKey : ∀ n ∈ g.nodes, ∀ c, n.id = .str (Node.clauseKey c) → n.kind = .clause
  ends : ∀ e ∈ g.edges, ∃ s t, e.source = .str s ∧ e.target = .str t
  numbers : (∀ e ∈ g.edges, ∃ k, e.id = .str k) ∧ g.edges.Pairwise fun a b => a.id ≠ b.id
  sources : ∀ e ∈ g.edges, e.relation.isDependency = true → e.source ∈ g.nodes.map Node.id
  requirements : ∀ a ∈ g.policyIds false, ∃ ls, g.requirements a = .ok ls
  paths : ∀ a ∈ g.policyIds false, ∃ ps, g.paths a = .ok ps

variable {cfg : Settings} {g : PolicyGraph} {p : Plan}

section Lookup

/-- A node is found by its text. -/
theorem IsLegible.node?_of_mem (h : g.IsLegible) {n : Node} (hn : n ∈ g.nodes) {k : String}
    (hk : n.id = .str k) : g.node? (.str k) = some n :=
  node?_eq_some hn hk fun _ hm hid =>
    List.inj_on_of_nodup_map h.distinct hm hn (hid.trans hk.symm)

/-- Nodes of one text are one node. -/
theorem IsLegible.eq_of_id (h : g.IsLegible) {m n : Node} (hm : m ∈ g.nodes) (hn : n ∈ g.nodes)
    (hid : m.id = n.id) : m = n :=
  List.inj_on_of_nodup_map h.distinct hm hn hid

/-- The policies of a graph that can be read have different names. -/
theorem IsLegible.nodup_policyIds (hg : g.IsLegible) (external : Bool) :
    (g.policyIds external).Nodup := by
  have hsub : (g.policies external).Sublist g.nodes :=
    (List.filter_sublist).trans List.filter_sublist
  refine List.Nodup.map_on (fun m hm n hn heq => ?_) (hg.distinct.of_map.sublist hsub)
  have hkind : ∀ n ∈ g.policies external, n.kind = .policy := by
    intro n hn
    have hof := List.mem_of_mem_filter hn
    simp only [nodesOfKind, List.mem_filter, decide_eq_true_eq] at hof
    exact hof.2
  obtain ⟨a, ha, hid⟩ := hg.policy m (hsub.subset hm) (hkind m hm)
  obtain ⟨b, hb, hid'⟩ := hg.policy n (hsub.subset hn) (hkind n hn)
  refine hg.eq_of_id (hsub.subset hm) (hsub.subset hn) ?_
  rw [hid, hid', Json.str.inj (ha.symm.trans (heq.trans hb))]

/-- The clauses of a policy are those of the clause nodes that it contains. -/
theorem IsLegible.exists_clausesOf (h : g.IsLegible) {a : String}
    (ha : g.hasNode (.str (Node.policyKey a)) = true) :
    ∃ cs : List String, g.clausesOf (.str a) = .ok (cs.map .str) ∧ ∀ c, c ∈ cs ↔
      ∃ e ∈ g.edges, e.source = .str (Node.policyKey a) ∧ e.relation = .contains ∧
        ∃ n, g.targetOf? .clause e = some n ∧ n.ownClause = .str c := by
  rw [clausesOf, Node.policyId_str, outEdges_eq ha, Attempt.ok_bind]
  have htexts : ∀ x ∈ (g.edges.filter fun e => decide (e.relation = .contains) &&
      e.source.alike (.str (Node.policyKey a))).filterMap fun e =>
        (g.targetOf? .clause e).map Node.ownClause, ∃ c, x = .str c := by
    intro x hx
    obtain ⟨e, -, he⟩ := List.mem_filterMap.mp hx
    obtain ⟨n, hn, rfl⟩ := Option.map_eq_some_iff.mp he
    obtain ⟨hn, hkind⟩ := Option.filter_eq_some_iff.mp hn
    obtain ⟨c, hc, -⟩ := h.clause n (mem_of_node? hn) (by simpa using hkind)
    exact ⟨c, hc⟩
  obtain ⟨cs, hcs⟩ := Name.exists_strs htexts
  refine ⟨cs, congrArg Except.ok hcs, fun c => ?_⟩
  have hmem : c ∈ cs ↔ Json.str c ∈ cs.map .str := by simp
  rw [hmem, ← hcs]
  simp only [List.mem_filterMap, List.mem_filter, Bool.and_eq_true, decide_eq_true_eq,
    Json.alike_str_right, Option.map_eq_some_iff]
  constructor
  · rintro ⟨e, ⟨he, hr, hs⟩, n, hn, hc⟩
    exact ⟨e, he, hs, hr, n, hn, hc⟩
  · rintro ⟨e, he, hs, hr, n, hn, hc⟩
    exact ⟨e, ⟨he, hr, hs⟩, n, hn, hc⟩

end Lookup

section Compiled

theorem source_of_mem_ownDrafts {ds : List Document} {policy : String} {head : Head} {d : Draft}
    (hd : d ∈ Plan.ownDrafts ds policy head) (hrelation : d.relation.isDependency = true) :
    d.source = Node.conditionKey head.id := by
  unfold Plan.ownDrafts Plan.clauseDrafts Plan.operandDrafts at hd
  grind [Relation.isDependency]

/-- Only declared policies and rules depend on anything. -/
theorem IsDrawnFrom.source_of_isDependency (h : g.IsDrawnFrom cfg p) {e : Edge} (he : e ∈ g.edges)
    (hrelation : e.relation.isDependency = true) :
    (∃ d ∈ p.documents, e.source = .str (Node.policyKey d.policy)) ∨
      ∃ q ∈ p.placed, e.source = .str (Node.conditionKey q.2.id) := by
  obtain ⟨n, x, hx, rfl⟩ := h.mem_edges.mp he
  have hrelation : x.relation.isDependency = true := hrelation
  rcases Plan.mem_drafts.mp (Plan.mem_drawn.mp (List.mem_of_getElem? hx)) with
    ⟨d, -, c, -, rfl⟩ | ⟨d, hd, hl⟩ | ⟨q, hq, ho | hl⟩ | ⟨d, hd, hm⟩
  · cases hrelation
  · obtain ⟨c, -, rfl⟩ := List.mem_map.mp hl
    exact .inl ⟨d, hd, rfl⟩
  · exact .inr ⟨q, hq, congrArg Json.str (source_of_mem_ownDrafts ho hrelation)⟩
  · obtain ⟨c, -, rfl⟩ := List.mem_map.mp hl
    exact .inr ⟨q, hq, rfl⟩
  · exact .inl ⟨d, hd, congrArg Json.str (Plan.relation_of_mem_mentionDrafts hm).2.2⟩

/-- The declared policies are those of documents. -/
theorem IsDrawnFrom.exists_of_mem_policyIds (h : g.IsDrawnFrom cfg p) {n : Name}
    (hn : n ∈ g.policyIds false) : ∃ d ∈ p.documents, n = .str d.policy := by
  obtain ⟨m, hm, rfl⟩ := List.mem_map.mp hn
  simp only [policies, nodesOfKind, List.mem_filter, decide_eq_true_eq, Bool.false_or,
    Bool.not_eq_true'] at hm
  obtain ⟨⟨hm, hkind⟩, hexternal⟩ := hm
  rcases h.eq_of_policy hm hkind with ⟨d, hd, rfl⟩ | ⟨d, -, t, -, rfl⟩
  · exact ⟨d, hd, by simp⟩
  · simp at hexternal

/-- Compiled graphs can be read. -/
theorem IsDrawnFrom.isLegible (h : g.IsDrawnFrom cfg p) : g.IsLegible where
  ids := fun n hn => exists_id_of_mem_layout (h.mem_nodes hn)
  distinct := h.nodes ▸ Plan.nodup_nodes
  leaf := by
    intro n hn hleaf
    obtain ⟨q, hq, hcomparison, rfl⟩ := h.eq_of_isLeaf hn hleaf
    have hsound := h.sound.rules q hq
    rw [(hsound.comparison hcomparison).1] at hsound
    exact ⟨cfg, q.1, q.2.head, hsound, hcomparison, rfl⟩
  policy := by
    intro n hn hkind
    rcases h.eq_of_policy hn hkind with ⟨d, -, rfl⟩ | ⟨d, -, t, -, rfl⟩
    · exact ⟨d.policy, by simp, rfl⟩
    · exact ⟨t, by simp, rfl⟩
  key := by
    intro n hn a hid
    rcases Plan.mem_layout.mp (h.mem_nodes hn) with
      ⟨d, -, rfl⟩ | ⟨d, -, c, -, rfl⟩ | ⟨d, -, t, -, rfl⟩ | ⟨q, -, rfl | ho⟩
    · rfl
    · exact absurd (Json.str.inj hid) (Node.clauseKey_ne_policyKey _ _)
    · rfl
    · exact absurd (Json.str.inj hid) (Node.conditionKey_ne_policyKey _ _)
    · exact absurd hid (Plan.id_ne_of_mem_operandNodes ho a).1
  clause := by
    intro n hn hkind
    obtain ⟨d, -, c, -, rfl⟩ := h.eq_of_clause hn hkind
    exact ⟨c.id, by simp, rfl⟩
  clauseKey := by
    intro n hn c hid
    rcases Plan.mem_layout.mp (h.mem_nodes hn) with
      ⟨d, -, rfl⟩ | ⟨d, -, c, -, rfl⟩ | ⟨d, -, t, -, rfl⟩ | ⟨q, -, rfl | ho⟩
    · exact absurd (Json.str.inj hid) (Node.clauseKey_ne_policyKey _ _).symm
    · rfl
    · exact absurd (Json.str.inj hid) (Node.clauseKey_ne_policyKey _ _).symm
    · exact absurd (Json.str.inj hid) (Node.clauseKey_ne_conditionKey _ _).symm
    · rcases Plan.mem_operandNodes ho with ⟨x, -, rfl⟩ | ⟨t, rfl⟩
      · exact absurd (Json.str.inj hid) (Node.thresholdKey_ne_clauseKey _ _ _ _)
      · exact absurd (Json.str.inj hid) (Node.entityKey_ne_clauseKey _ _)
  ends := by
    intro e he
    obtain ⟨i, d, -, rfl⟩ := h.mem_edges.mp he
    exact ⟨d.source, d.target, rfl, rfl⟩
  numbers := h.edges ▸ Draft.number_ids 0 p.drawn
  sources := by
    intro e he hrelation
    rcases h.source_of_isDependency he hrelation with ⟨d, hd, hs⟩ | ⟨q, hq, hs⟩
    · exact hs ▸ List.mem_map_of_mem (node?_spec (h.node?_policy hd)).1
    · exact hs ▸ List.mem_map_of_mem (node?_spec (h.node?_condition hq)).1
  requirements := by
    intro a ha
    obtain ⟨d, hd, rfl⟩ := h.exists_of_mem_policyIds ha
    exact ⟨_, h.hasTreesOf.requirements_eq hd⟩
  paths := by
    intro a ha
    obtain ⟨d, hd, rfl⟩ := h.exists_of_mem_policyIds ha
    exact ⟨_, h.hasTreesOf.paths_eq hd⟩

end Compiled

end PolicyGraph
end Eligibility
