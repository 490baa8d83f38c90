import Eligibility.Proofs.Agreement
import Eligibility.Proofs.CommonNodes
/-!
# Graphs composed of graphs that share no rules

**Nodes.**  A rule of one of the graphs stands for itself, and so does a declared policy: where
several graphs declare it, they declare the same.

**Trees.**  No graph has rules below those of another one, so that all trees are kept.  A policy
that several graphs declare has no rules at all.

**Results.**
* `IsUnionOf.joins_iff`, `IsUnionOf.hasNode_iff`: edges and nodes come from the graphs.
* `IsUnionOf.hasTreesOf`: the trees of the graphs are kept.
* `IsUnionOf.isLegible`: the composed graph can be read.
* `IsUnionOf.hasTenets`: the composed graph says of its policies what the graphs do.
-/

namespace Eligibility

theorem Plan.policyNode_roots (cfg : Settings) (d : Document) (rs : List Rule) :
    (policyNode cfg d rs).get "root_rule_ids" = Json.strs (rs.map Rule.id) := by
  simp [Node.get, Node.property?, policyNode, Entries.get?_ofFields, List.lookup_cons,
    Property.toJson]

namespace PolicyGraph

section Edges

theorem renumber_ids (n : Nat) (es : List Edge) : (∀ e ∈ renumber n es, ∃ k, e.id = .str k) ∧
    (renumber n es).Pairwise fun a b => a.id ≠ b.id := by
  have hnumber : ∀ (n : Nat) (es : List Edge), ∀ e ∈ renumber n es,
      ∃ i, n ≤ i ∧ e.id = Edge.numbered i := by
    intro n es
    induction es generalizing n with
    | nil => simp [renumber]
    | cons x r ih =>
        intro e he
        rcases List.mem_cons.mp he with rfl | he
        · exact ⟨n, le_rfl, rfl⟩
        · obtain ⟨i, hi, hid⟩ := ih (n + 1) e he
          exact ⟨i, by omega, hid⟩
  refine ⟨fun e he => ?_, ?_⟩
  · obtain ⟨i, -, hid⟩ := hnumber n es e he
    exact ⟨_, hid⟩
  · induction es generalizing n with
    | nil => exact .nil
    | cons x r ih =>
        refine List.pairwise_cons.mpr ⟨fun e he heq => ?_, ih (n + 1)⟩
        obtain ⟨i, hi, hid⟩ := hnumber (n + 1) r e he
        have := Edge.numbered_inj (heq.trans hid)
        omega

theorem exists_mem_renumber {e : Edge} {es : List Edge} (he : e ∈ es) (n : Nat) :
    ∃ m, { e with id := Edge.numbered m } ∈ renumber n es := by
  induction es generalizing n with
  | nil => cases he
  | cons x r ih =>
      rcases List.mem_cons.mp he with rfl | he
      · exact ⟨n, List.mem_cons_self⟩
      · obtain ⟨m, hm⟩ := ih he (n + 1)
        exact ⟨m, List.mem_cons_of_mem _ hm⟩

/-- Every edge of the graphs has one of its relation between its ends in the composed graph. -/
theorem exists_of_mem_edges {gs : List PolicyGraph} {es : List Edge}
    (h : composeEdges gs = .ok es) {g : PolicyGraph} (hg : g ∈ gs) {e : Edge} (he : e ∈ g.edges)
    {s t : String} (hs : e.source = .str s) (ht : e.target = .str t) :
    ∃ e' ∈ es, e'.relation = e.relation ∧ e'.source = .str s ∧ e'.target = .str t := by
  obtain ⟨ts, hts, rfl⟩ := Attempt.map_eq_ok.mp h
  obtain ⟨kept, hkept, -, -, hcover⟩ := exists_firstTies [] ts
  obtain ⟨u, hu, rfl⟩ : ∃ u ∈ ts, u.edge = e := by
    refine List.mem_map.mp ?_
    rw [(tiesOf_eq_ok hts).1]
    exact List.mem_flatMap.mpr ⟨g, hg, he⟩
  obtain ⟨v, hv, hrelation, hsource, htarget⟩ : ∃ v ∈ kept, v.edge.relation = u.edge.relation ∧
      v.edge.source = .str s ∧ v.edge.target = .str t := by
    rcases hcover u hu with hnone | ⟨v, hv, rfl | hagrees⟩
    · simp at hnone
    · exact ⟨v, hv, rfl, hs, ht⟩
    · rw [Tie.agrees, hs, ht] at hagrees
      simp only [Bool.and_eq_true, decide_eq_true_eq, Json.alike_str_left] at hagrees
      exact ⟨v, hv, hagrees.1.2.symm, hagrees.1.1.1, hagrees.1.1.2⟩
  obtain ⟨m, hm⟩ := exists_mem_renumber (List.mem_map_of_mem (f := Tie.edge) hv) 0
  rw [← hkept] at hm
  exact ⟨_, hm, hrelation, hsource, htarget⟩

end Edges

/-- A graph composed of compiled graphs with named policies that share no rules. -/
structure IsUnionOf (c : PolicyGraph) (gs : List PolicyGraph) : Prop where
  composed : c.IsComposedOf gs
  drawn : ∀ g ∈ gs, ∃ cfg p, g.IsDrawnFrom cfg p ∧ AreNamed p.documents
  rules : gs.Pairwise SharesNoRule

variable {c c' g : PolicyGraph} {gs gs' : List PolicyGraph} {cfg : Settings} {p : Plan}

section Nodes

theorem IsDrawnFrom.eq_of_declared (h : g.IsDrawnFrom cfg p) {n : Node} (hn : n ∈ g.nodes)
    (hkind : n.kind = .policy) (hexternal : n.isExternal = false) :
    ∃ d ∈ p.documents, n = Plan.policyNode cfg d (p.rootsOf d.policy) := by
  refine (h.eq_of_policy hn hkind).resolve_right ?_
  rintro ⟨d, -, t, -, rfl⟩
  simp at hexternal

theorem IsUnionOf.isDrawn (h : c.IsUnionOf gs) : ∀ g ∈ gs, ∃ cfg p, g.IsDrawnFrom cfg p := by
  intro g hg
  obtain ⟨cfg, p, hp, -⟩ := h.drawn g hg
  exact ⟨cfg, p, hp⟩

theorem IsUnionOf.isLegible_of_mem (h : c.IsUnionOf gs) (hg : g ∈ gs) : g.IsLegible := by
  obtain ⟨cfg, p, hp⟩ := h.isDrawn g hg
  exact hp.isLegible

/-- The nodes of the composed graph come from the graphs. -/
theorem IsUnionOf.exists_of_mem (h : c.IsUnionOf gs) {m : Node} (hm : m ∈ c.nodes) :
    ∃ g ∈ gs, m ∈ g.nodes :=
  List.mem_flatMap.mp ((h.composed.absorbs.origin m hm).resolve_left (by simp))

theorem IsUnionOf.hasNode_iff (h : c.IsUnionOf gs) {k : String} :
    c.hasNode (.str k) = true ↔ ∃ g ∈ gs, g.hasNode (.str k) = true := by
  constructor
  · intro hk
    obtain ⟨m, hm⟩ := Option.isSome_iff_exists.mp hk
    obtain ⟨hmem, hid⟩ := node?_spec hm
    obtain ⟨g, hg, hmem⟩ := h.exists_of_mem hmem
    exact ⟨g, hg, hasNode_of_node? ((h.isLegible_of_mem hg).node?_of_mem hmem hid)⟩
  · rintro ⟨g, hg, hk⟩
    obtain ⟨n, hn⟩ := Option.isSome_iff_exists.mp hk
    obtain ⟨hmem, hid⟩ := node?_spec hn
    obtain ⟨m, hm, -⟩ := h.composed.exists_stands hg hmem hid
    exact hasNode_of_node? hm

/-- A rule or a declared policy of one of the graphs stands for itself. -/
theorem IsUnionOf.node?_eq (h : c.IsUnionOf gs) (hg : g ∈ gs) {n : Node} (hn : n ∈ g.nodes)
    {k : String} (hk : n.id = .str k) (hexternal : n.isExternal = false)
    (hkind : n.kind = .policy ∨ n.kind = .condition) : c.node? (.str k) = some n := by
  obtain ⟨m, hm, hstands⟩ := h.composed.exists_stands hg hn hk
  obtain ⟨hmexternal, rfl | halike⟩ := hstands.agrees hexternal
  · exact hm
  obtain ⟨g', hg', hmem⟩ := h.exists_of_mem (node?_spec hm).1
  have hsame := Node.alike_kind halike
  rcases hkind with hpolicy | hcondition
  · obtain ⟨cfg, p, hp⟩ := h.isDrawn g hg
    obtain ⟨cfg', p', hp'⟩ := h.isDrawn g' hg'
    obtain ⟨d, -, rfl⟩ := hp.eq_of_declared hn hpolicy hexternal
    obtain ⟨d', -, rfl⟩ := hp'.eq_of_declared hmem (hsame.trans hpolicy) hmexternal
    rw [hm, Plan.policyNode_eq_of_alike halike]
  · rw [hm, eq_of_rule h.isDrawn h.rules (List.mem_flatMap.mpr ⟨g', hg', hmem⟩)
      (List.mem_flatMap.mpr ⟨g, hg, hn⟩) (hsame.trans hcondition) hcondition hstands.id]

theorem IsUnionOf.node?_policy (h : c.IsUnionOf gs) (hg : g ∈ gs) (hp : g.IsDrawnFrom cfg p)
    {d : Document} (hd : d ∈ p.documents) : c.node? (.str (Node.policyKey d.policy)) =
      some (Plan.policyNode cfg d (p.rootsOf d.policy)) := by
  obtain ⟨hn, hk⟩ := node?_spec (hp.node?_policy hd)
  exact h.node?_eq hg hn hk (Plan.policyNode_isExternal _ _ _) (.inl rfl)

theorem IsUnionOf.node?_condition (h : c.IsUnionOf gs) (hg : g ∈ gs) (hp : g.IsDrawnFrom cfg p)
    {q : String × Rule} (hq : q ∈ p.placed) : c.node? (.str (Node.conditionKey q.2.id)) =
      some (Plan.conditionNode cfg q.1 q.2.head) := by
  obtain ⟨hn, hk⟩ := node?_spec (hp.node?_condition hq)
  exact h.node?_eq hg hn hk (conditionNode_isExternal q.1 q.2.head) (.inr rfl)

/-- The policies of a composed graph are declared by one of the graphs, or mentioned only. -/
theorem IsUnionOf.cases_policy (h : c.IsUnionOf gs) {a : String} {n : Node}
    (hn : c.node? (.str (Node.policyKey a)) = some n) :
    (∃ g ∈ gs, n ∈ g.nodes ∧ n.kind = .policy ∧ n.isExternal = false) ∨
      n = Plan.externalNode a := by
  obtain ⟨hmem, hid⟩ := node?_spec hn
  obtain ⟨g, hg, hmem⟩ := h.exists_of_mem hmem
  obtain ⟨cfg, p, hp⟩ := h.isDrawn g hg
  have hkind := hp.isLegible.key n hmem a hid
  rcases hp.eq_of_policy hmem hkind with ⟨d, hd, rfl⟩ | ⟨d, -, t, -, rfl⟩
  · exact .inl ⟨g, hg, hmem, hkind, Plan.policyNode_isExternal _ _ _⟩
  · exact .inr (congrArg _ (Node.policyKey_inj.mp (Json.str.inj hid)))

/-- Graphs composed of the same graphs in any order have the same policies. -/
theorem IsUnionOf.node?_policyKey (h : c.IsUnionOf gs) (h' : c'.IsUnionOf gs')
    (hmem : ∀ g, g ∈ gs ↔ g ∈ gs') (a : String) :
    c.node? (.str (Node.policyKey a)) = c'.node? (.str (Node.policyKey a)) := by
  have hdeclared : ∀ {c c' : PolicyGraph} {gs gs' : List PolicyGraph}, c.IsUnionOf gs →
      c'.IsUnionOf gs' → (∀ g, g ∈ gs → g ∈ gs') → ∀ {n : Node},
      c.node? (.str (Node.policyKey a)) = some n →
        c'.node? (.str (Node.policyKey a)) = some n ∨ n = Plan.externalNode a := by
    intro c c' gs gs' h h' hsub n hn
    refine (h.cases_policy hn).imp_left fun ⟨g, hg, hnode, hkind, hexternal⟩ => ?_
    exact h'.node?_eq (hsub g hg) hnode (node?_spec hn).2 hexternal (.inl hkind)
  have hhas : c.hasNode (.str (Node.policyKey a)) = c'.hasNode (.str (Node.policyKey a)) := by
    rw [Bool.eq_iff_iff, h.hasNode_iff, h'.hasNode_iff]
    simp only [hmem]
  unfold hasNode at hhas
  cases hn : c.node? (.str (Node.policyKey a)) with
  | none =>
      rw [hn] at hhas
      exact (Option.not_isSome_iff_eq_none.mp (by simp [← hhas])).symm
  | some n =>
      obtain ⟨n', hn'⟩ := Option.isSome_iff_exists.mp (hhas.symm.trans (by rw [hn]; rfl))
      rcases hdeclared h h' (fun g => (hmem g).mp) hn with heq | hexternal
      · exact heq.symm
      rcases hdeclared h' h (fun g => (hmem g).mpr) hn' with heq | hexternal'
      · rw [hn', ← hn, heq]
      · rw [hn', hexternal, hexternal']

/-- The composed graph has no fewer nodes than one of the graphs. -/
theorem IsUnionOf.length_nodes_le (h : c.IsUnionOf gs) (hg : g ∈ gs) :
    g.nodes.length ≤ c.nodes.length := by
  have hsub : g.nodes.map Node.id ⊆ c.nodes.map Node.id := by
    intro k hk
    obtain ⟨n, hn, rfl⟩ := List.mem_map.mp hk
    obtain ⟨m, hm, hstands⟩ := h.composed.absorbs.stands n (List.mem_flatMap.mpr ⟨g, hg, hn⟩)
    exact List.mem_map.mpr ⟨m, hm, hstands.id⟩
  have hlength := (List.subperm_of_subset (h.isLegible_of_mem hg).distinct hsub).length_le
  rwa [List.length_map, List.length_map] at hlength

/-- A rule is placed by one graph only. -/
theorem IsUnionOf.eq_of_placed (h : c.IsUnionOf gs) {g' : PolicyGraph} {cfg' : Settings} {p' : Plan}
    (hg : g ∈ gs) (hg' : g' ∈ gs) (hp : g.IsDrawnFrom cfg p) (hp' : g'.IsDrawnFrom cfg' p')
    {q q' : String × Rule} (hq : q ∈ p.placed) (hq' : q' ∈ p'.placed) (hid : q.2.id = q'.2.id) :
    g = g' := by
  by_contra hne
  exact (h.rules.forall hg hg' hne).id_ne hp hp' hq hq' hid

/-- Graphs that declare one policy give it the same rules. -/
theorem IsUnionOf.rootsOf_eq (h : c.IsUnionOf gs) {g' : PolicyGraph} {cfg' : Settings} {p' : Plan}
    (hg : g ∈ gs) (hg' : g' ∈ gs) (hp : g.IsDrawnFrom cfg p) (hp' : g'.IsDrawnFrom cfg' p')
    {d d' : Document} (hd : d ∈ p.documents) (hd' : d' ∈ p'.documents)
    (hpolicy : d'.policy = d.policy) :
    (p'.rootsOf d'.policy).map Rule.id = (p.rootsOf d.policy).map Rule.id := by
  have hnode := h.node?_policy hg hp hd
  have hnode' := h.node?_policy hg' hp' hd'
  rw [hpolicy, hnode] at hnode'
  have hroots := congrArg (Node.get · "root_rule_ids") (Option.some.inj hnode')
  simp only [Plan.policyNode_roots] at hroots
  rw [hpolicy]
  exact (Json.strs_inj (Json.arr.inj hroots)).symm

end Nodes

section Connections

theorem IsUnionOf.joins_iff (h : c.IsUnionOf gs) {r : Relation} {s t : String} :
    c.Joins r s t ↔ ∃ g ∈ gs, g.Joins r s t := by
  constructor
  · rintro ⟨e, he, rfl, hs, ht⟩
    obtain ⟨g, hg, e', he', m, rfl⟩ := mem_of_composeEdges h.composed.edges e he
    exact ⟨g, hg, e', he', rfl, hs, ht⟩
  · rintro ⟨g, hg, e, he, rfl, hs, ht⟩
    obtain ⟨e', he', hr, hs, ht⟩ := exists_of_mem_edges h.composed.edges hg he hs ht
    exact ⟨e', he', hr, hs, ht⟩

/-- Graphs composed of the same graphs in any order are connected alike. -/
theorem IsUnionOf.connects (h : c.IsUnionOf gs) (h' : c'.IsUnionOf gs')
    (hmem : ∀ g, g ∈ gs ↔ g ∈ gs') : c.Connects c' where
  joins := by
    intro r s t
    rw [h.joins_iff, h'.joins_iff]
    simp only [hmem]
  policies := by
    intro a
    rw [HasPolicy, HasPolicy, h.node?_policyKey h' hmem]
  clauses := by
    intro n
    rw [Bool.eq_iff_iff]
    change c.hasNode (.str _) = true ↔ c'.hasNode (.str _) = true
    rw [h.hasNode_iff, h'.hasNode_iff]
    simp only [hmem]
  entities := by
    rintro a ⟨n, hn, -⟩
    rw [entityOf_eq hn, entityOf_eq ((h.node?_policyKey h' hmem a).symm.trans hn)]

end Connections

section Trees

/-- A node keeps the children that one graph gives it, if the others give it the same ones or
none. -/
theorem IsComposedOf.childrenOf_eq (h : c.IsComposedOf gs) {k : String} {o : Option Operator}
    {ids : List String} (htree : ∀ g ∈ gs, g.HasChildren k o ids ∨ g.HasChildren k o [])
    (hids : ∃ g ∈ gs, g.HasChildren k o ids) (hk : c.hasNode (.str k) = true) :
    c.childrenOf (.str k) = .ok (ids.map (childOf o)) := by
  have hchoice : ∀ g ∈ gs, ∃ is, g.HasChildren k o is ∧ (is = ids ∨ is = []) ∧
      (g.HasChildren k o ids → is = ids) := by
    intro g hg
    by_cases hof : g.HasChildren k o ids
    · exact ⟨ids, hof, .inl rfl, fun _ => rfl⟩
    · exact ⟨[], (htree g hg).resolve_left hof, .inr rfl, fun h => absurd h hof⟩
  choose! is htrees hof hall using hchoice
  obtain ⟨Z, hZ, hmem, ys, hys, -, hperm⟩ := h.exists_children htrees hk
  rw [hys, hperm ids ((List.perm_ext_iff_of_nodup hZ (zipIdx_nodup _)).mpr fun x => ?_)]
  rw [hmem]
  constructor
  · rintro ⟨g, hg, hx⟩
    rcases hof g hg with heq | heq <;> rw [heq] at hx
    · exact hx
    · simp at hx
  · intro hx
    obtain ⟨g, hg, hgids⟩ := hids
    exact ⟨g, hg, by rwa [hall g hg hgids]⟩

/-- The branches of a node lead to the nodes of its children. -/
theorem IsComposedOf.exists_branches (h : c.IsComposedOf gs) {k : Name} {o : Option Operator}
    {rs : List Rule} {policy : String}
    (hchildren : c.childrenOf k = .ok ((rs.map Rule.id).map (childOf o)))
    (hnodes : ∀ r ∈ rs, c.node? (.str (Node.conditionKey r.id)) =
      some (Plan.conditionNode cfg policy r.head)) :
    ∃ bs, c.ruleChildren k = .ok bs ∧
      List.Forall₂ (fun r b => b.node = Plan.conditionNode cfg policy r.head ∧
        b.edge.isNegated = decide (o = some .not)) rs bs := by
  obtain ⟨bs, hbs, heq⟩ := Attempt.map_eq_ok.mp hchildren
  refine ⟨bs, hbs, ?_⟩
  rw [List.map_map, eq_comm, ← List.forall₂_eq_eq_eq, List.forall₂_map_left_iff,
    List.forall₂_map_right_iff] at heq
  have hfound := (List.forall₂_and_left _ _).mpr ⟨mem_of_ruleChildren hbs, heq.flip⟩
  refine ((List.forall₂_and_left _ _).mpr ⟨hnodes, hfound.flip⟩).imp ?_
  rintro r b ⟨hr, hb, hid⟩
  obtain ⟨hid, hnegated⟩ := Prod.ext_iff.mp hid
  have hnode := h.node?_eq hb hid.symm
  exact ⟨Option.some.inj (hnode.symm.trans hr), hnegated.symm⟩

/-- The trees of the graphs are kept. -/
theorem IsUnionOf.hasTreesOf (h : c.IsUnionOf gs) (hg : g ∈ gs) (hp : g.IsDrawnFrom cfg p) :
    c.HasTreesOf cfg p where
  branches := by
    intro q hq
    have htree : ∀ g' ∈ gs,
        g'.HasChildren (Node.conditionKey q.2.id) (some q.2.operator)
          (q.2.children.map Rule.id) ∨
        g'.HasChildren (Node.conditionKey q.2.id) (some q.2.operator) [] := by
      intro g' hg'
      obtain ⟨cfg', p', hp'⟩ := h.isDrawn g' hg'
      by_cases hid : ∃ q' ∈ p'.placed, q'.2.id = q.2.id
      · obtain ⟨q', hq', hid⟩ := hid
        obtain rfl : g' = g := h.eq_of_placed hg' hg hp' hp hq' hq hid
        exact .inl (hp.hasChildren_rule hq)
      · exact .inr (hp'.hasChildren_unplaced hid _)
    have hchildren := h.composed.childrenOf_eq htree ⟨g, hg, hp.hasChildren_rule hq⟩
      (hasNode_of_node? (h.node?_condition hg hp hq))
    obtain ⟨bs, hbs, hall⟩ := h.composed.exists_branches hchildren fun r hr =>
      h.node?_condition hg hp (Plan.placed_child hq hr)
    exact ⟨bs, hbs, by simpa using hall⟩
  roots := by
    intro d hd
    have htree : ∀ g' ∈ gs, g'.HasChildren (Node.policyKey d.policy) none
          ((p.rootsOf d.policy).map Rule.id) ∨
        g'.HasChildren (Node.policyKey d.policy) none [] := by
      intro g' hg'
      obtain ⟨cfg', p', hp'⟩ := h.isDrawn g' hg'
      by_cases hdeclared : d.policy ∈ p'.documents.map Document.policy
      · obtain ⟨d', hd', hpolicy⟩ := List.mem_map.mp hdeclared
        have hroots := h.rootsOf_eq hg hg' hp hp' hd hd' hpolicy
        have hchildren := hp'.hasChildren_document hd'
        rw [hpolicy] at hchildren hroots
        exact .inl (hroots ▸ hchildren)
      · exact .inr (hp'.hasChildren_undeclared hdeclared)
    have hchildren := h.composed.childrenOf_eq htree ⟨g, hg, hp.hasChildren_document hd⟩
      (hasNode_of_node? (h.node?_policy hg hp hd))
    obtain ⟨bs, hbs, hall⟩ := h.composed.exists_branches hchildren fun r hr =>
      h.node?_condition hg hp (Plan.placed_root hd hr)
    exact ⟨bs, by rw [policyRoots, Node.policyId_str, hbs], by simpa using hall⟩
  depth := by
    intro q hq
    exact (hp.depth_le hq).trans (h.length_nodes_le hg)

end Trees

section Legibility

/-- The declared policies of the composed graph are those of the graphs. -/
theorem IsUnionOf.mem_policyIds (h : c.IsUnionOf gs) {n : Name} :
    n ∈ c.policyIds false ↔ ∃ g ∈ gs, n ∈ g.policyIds false := by
  have hof : ∀ (g : PolicyGraph) (n : Name), n ∈ g.policyIds false ↔
      ∃ m ∈ g.nodes, m.isExternal = false ∧ m.kind = .policy ∧ m.policy = n := by
    intro g n
    simp [policyIds, policies, nodesOfKind, and_assoc]
  simp only [hof]
  constructor
  · rintro ⟨m, hm, hpolicy⟩
    obtain ⟨g, hg, hm⟩ := h.exists_of_mem hm
    exact ⟨g, hg, m, hm, hpolicy⟩
  · rintro ⟨g, hg, m, hm, hexternal, hkind, hpolicy⟩
    obtain ⟨k, hk⟩ := (h.isLegible_of_mem hg).ids m hm
    exact ⟨m, mem_of_node? (h.node?_eq hg hm hk hexternal (.inl hkind)), hexternal, hkind, hpolicy⟩

/-- The conditions without operands of the composed graph are those of the graphs. -/
theorem IsUnionOf.mem_leaves (h : c.IsUnionOf gs) {n : Node} (hn : n.isLeaf = true) :
    n ∈ c.nodes ↔ ∃ g ∈ gs, n ∈ g.nodes := by
  refine ⟨h.exists_of_mem, ?_⟩
  rintro ⟨g, hg, hmem⟩
  obtain ⟨cfg, p, hp⟩ := h.isDrawn g hg
  obtain ⟨x, -, -, rfl⟩ := (hp.mem_leaves hn).mp hmem
  exact mem_of_node? (h.node?_eq hg hmem rfl (conditionNode_isExternal x.1 x.2.head) (.inr rfl))

/-- What depends on anything in one of the graphs stands for itself. -/
theorem IsUnionOf.node?_source (h : c.IsUnionOf gs) (hg : g ∈ gs) {e : Edge} (he : e ∈ g.edges)
    (hrelation : e.relation.isDependency = true) : ∃ n ∈ g.nodes, n.id = e.source ∧
      c.node? e.source = some n := by
  obtain ⟨cfg, p, hp⟩ := h.isDrawn g hg
  rcases hp.source_of_isDependency he hrelation with ⟨d, hd, hs⟩ | ⟨q, hq, hs⟩ <;> rw [hs]
  · exact ⟨_, (node?_spec (hp.node?_policy hd)).1, rfl, h.node?_policy hg hp hd⟩
  · exact ⟨_, (node?_spec (hp.node?_condition hq)).1, rfl, h.node?_condition hg hp hq⟩

/-- The composed graph can be read. -/
theorem IsUnionOf.isLegible (h : c.IsUnionOf gs) : c.IsLegible := by
  have hnode : ∀ m ∈ c.nodes, ∃ g : PolicyGraph, g.IsLegible ∧ m ∈ g.nodes := by
    intro m hm
    obtain ⟨g, hg, hm⟩ := h.exists_of_mem hm
    exact ⟨g, h.isLegible_of_mem hg, hm⟩
  have hpolicy : ∀ a ∈ c.policyIds false, ∃ cfg p, c.HasTreesOf cfg p ∧
      ∃ d ∈ p.documents, a = .str d.policy := by
    intro a ha
    obtain ⟨g, hg, ha⟩ := h.mem_policyIds.mp ha
    obtain ⟨cfg, p, hp⟩ := h.isDrawn g hg
    exact ⟨cfg, p, h.hasTreesOf hg hp, hp.exists_of_mem_policyIds ha⟩
  refine ⟨fun m hm => ?_, h.composed.absorbs.nodup (by simp), fun m hm => ?_, fun m hm => ?_,
    fun m hm => ?_, fun m hm => ?_, fun m hm => ?_, fun e he => ?_, ?_, fun e he hr => ?_,
    fun a ha => ?_, fun a ha => ?_⟩
  · obtain ⟨g, hg, hm⟩ := hnode m hm
    exact hg.ids m hm
  · obtain ⟨g, hg, hm⟩ := hnode m hm
    exact hg.leaf m hm
  · obtain ⟨g, hg, hm⟩ := hnode m hm
    exact hg.policy m hm
  · obtain ⟨g, hg, hm⟩ := hnode m hm
    exact hg.key m hm
  · obtain ⟨g, hg, hm⟩ := hnode m hm
    exact hg.clause m hm
  · obtain ⟨g, hg, hm⟩ := hnode m hm
    exact hg.clauseKey m hm
  · obtain ⟨g, hg, e', he', m, rfl⟩ := mem_of_composeEdges h.composed.edges e he
    exact (h.isLegible_of_mem hg).ends e' he'
  · obtain ⟨ts, -, hes⟩ := Attempt.map_eq_ok.mp h.composed.edges
    exact hes ▸ renumber_ids 0 _
  · obtain ⟨g, hg, e', he', m, rfl⟩ := mem_of_composeEdges h.composed.edges e he
    obtain ⟨n, -, hid, hn⟩ := h.node?_source hg he' hr
    exact hid ▸ List.mem_map_of_mem (mem_of_node? hn)
  · obtain ⟨cfg, p, htrees, d, hd, rfl⟩ := hpolicy a ha
    exact ⟨_, htrees.requirements_eq hd⟩
  · obtain ⟨cfg, p, htrees, d, hd, rfl⟩ := hpolicy a ha
    exact ⟨_, htrees.paths_eq hd⟩

theorem IsUnionOf.hasNamedSources (h : c.IsUnionOf gs) : c.HasNamedSources := by
  intro e he hr n hn hid
  obtain ⟨g, hg, e', he', m, rfl⟩ := mem_of_composeEdges h.composed.edges e he
  obtain ⟨n', hn', hid', hfound⟩ := h.node?_source hg he' hr
  obtain rfl := h.isLegible.eq_of_id hn (mem_of_node? hfound) (hid.trans hid'.symm)
  obtain ⟨cfg, p, hp, hnamed⟩ := h.drawn g hg
  exact hp.hasNamedSources hnamed e' he' hr n hn' hid'

end Legibility

section Tenets

variable {parts : List (Settings × Plan)}

/-- The composed graph says of its policies what the graphs do. -/
theorem IsUnionOf.hasTenets (h : c.IsUnionOf gs)
    (hparts : List.Forall₂ (fun g q => g.IsDrawnFrom q.1 q.2) gs parts) :
    c.HasTenets (parts.flatMap fun q => q.2.tenets q.1) := by
  have hpart : ∀ q ∈ parts, ∃ g ∈ gs, g.IsDrawnFrom q.1 q.2 := fun q hq =>
    Attempt.exists_left hparts hq
  have hdrawn : ∀ g ∈ gs, ∃ q ∈ parts, g.IsDrawnFrom q.1 q.2 := fun g hg =>
    Attempt.exists_right hparts hg
  refine h.isLegible.hasTenets (fun q hq => ?_) (fun n => ?_) (fun n hn => ?_) ?_ ?_
  · obtain ⟨g, hg, hp⟩ := hpart q hq
    exact h.hasTreesOf hg hp
  · rw [h.mem_policyIds]
    constructor
    · rintro ⟨g, hg, hn⟩
      obtain ⟨q, hq, hp⟩ := hdrawn g hg
      exact ⟨q, hq, hp.mem_policyIds.mp hn⟩
    · rintro ⟨q, hq, hn⟩
      obtain ⟨g, hg, hp⟩ := hpart q hq
      exact ⟨g, hg, hp.mem_policyIds.mpr hn⟩
  · rw [h.mem_leaves hn]
    constructor
    · rintro ⟨g, hg, hmem⟩
      obtain ⟨q, hq, hp⟩ := hdrawn g hg
      exact ⟨q, hq, (hp.mem_leaves hn).mp hmem⟩
    · rintro ⟨q, hq, hmem⟩
      obtain ⟨g, hg, hp⟩ := hpart q hq
      exact ⟨g, hg, (hp.mem_leaves hn).mpr hmem⟩
  · rw [List.map_flatMap, List.nodup_flatMap]
    refine ⟨fun q hq => ?_, Attempt.pairwise_right hparts h.rules fun g g' q q' hp hp' hgg' => ?_⟩
    · obtain ⟨g, -, hp⟩ := hpart q hq
      exact hp.sound.ids
    · intro id hid hid'
      obtain ⟨x, hx, rfl⟩ := List.mem_map.mp hid
      obtain ⟨x', hx', heq⟩ := List.mem_map.mp hid'
      exact hgg'.id_ne hp hp' hx hx' heq.symm
  · have hmembers := (List.forall₂_and_left _ _).mpr ⟨fun g hg => hg, hparts⟩
    rw [List.map_flatMap, List.nodup_flatMap]
    refine ⟨fun q hq => ?_, Attempt.pairwise_right hmembers h.rules fun g g' q q' hp hp' hgg' => ?_⟩
    · obtain ⟨g, -, hp⟩ := hpart q hq
      exact Plan.nodup_policies_tenets hp.sound
    · -- policies with rules are declared by one graph only
      obtain ⟨hg, hp⟩ := hp
      obtain ⟨hg', hp'⟩ := hp'
      intro a ha ha'
      obtain ⟨t, ht, rfl⟩ := List.mem_map.mp ha
      obtain ⟨t', ht', hpolicy⟩ := List.mem_map.mp ha'
      obtain ⟨d, hd, hroots, rfl⟩ := Plan.mem_tenets.mp ht
      obtain ⟨d', hd', -, rfl⟩ := Plan.mem_tenets.mp ht'
      obtain ⟨r, hr⟩ := List.exists_mem_of_ne_nil _ hroots
      have hid := List.mem_map_of_mem (f := Rule.id) hr
      rw [← h.rootsOf_eq hg hg' hp hp' hd hd' hpolicy] at hid
      obtain ⟨r', hr', hid⟩ := List.mem_map.mp hid
      exact hgg'.id_ne hp hp' (Plan.placed_root hd hr) (Plan.placed_root hd' hr') hid.symm

end Tenets

end PolicyGraph
end Eligibility
