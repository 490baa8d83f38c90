import Eligibility.Proofs.GraphOrder
import Eligibility.Proofs.Locality
/-!
# Graphs composed of graphs that declare different policies

**Edges.**  Dropping edges that agree commutes with looking at the edges of one node.  What a policy
requires and contains is said by one graph only, once each, so that nothing of it is dropped and
its order stays.

**Evaluation.**  A policy that needs nothing from other graphs has the same rules, clauses and
requirements in the composed graph, and gets the same verdicts.

**Results.**
* `IsUnionOf.outEdges_policy`: what a policy requires and contains.
* `IsUnionOf.concurs`: a graph and the composed one concur on the policies of the graph.
* `PolicyGraph.evaluate_composed`: composition is a conservative extension.
-/

namespace Eligibility
namespace PolicyGraph

section Ties

variable {Q : Edge → Bool}

/-- Looking at some of the edges, with those that agree with them, commutes with dropping edges. -/
theorem filter_firstTies (hQ : ∀ t u : Tie, t.agrees u = true → Q t.edge = Q u.edge)
    (seen ts : List Tie) : (firstTies seen ts).filter Q =
      firstTies (seen.filter fun t => Q t.edge) (ts.filter fun t => Q t.edge) := by
  induction ts generalizing seen with
  | nil => rfl
  | cons t r ih =>
      by_cases ht : Q t.edge = true
      · have hseen : (seen.filter fun u => Q u.edge).any t.agrees = seen.any t.agrees := by
          rw [Bool.eq_iff_iff, List.any_eq_true, List.any_eq_true]
          constructor
          · rintro ⟨u, hu, htu⟩
            exact ⟨u, List.mem_of_mem_filter hu, htu⟩
          · rintro ⟨u, hu, htu⟩
            exact ⟨u, List.mem_filter.mpr ⟨hu, by rw [← hQ t u htu, ht]⟩, htu⟩
        rw [List.filter_cons_of_pos (p := fun u : Tie => Q u.edge) ht, firstTies, firstTies, hseen]
        split
        · exact ih seen
        · rw [List.filter_cons_of_pos ht, ih,
            List.filter_cons_of_pos (p := fun u : Tie => Q u.edge) ht]
      · rw [List.filter_cons_of_neg (p := fun u : Tie => Q u.edge) ht, firstTies]
        split
        · exact ih seen
        · rw [List.filter_cons_of_neg ht, ih,
            List.filter_cons_of_neg (p := fun u : Tie => Q u.edge) ht]

/-- Edges of which no two agree are all kept. -/
theorem firstTies_eq_map {ts : List Tie} (hts : ts.Pairwise fun t u => u.agrees t = false)
    (seen : List Tie) (hseen : ∀ t ∈ ts, seen.any t.agrees = false) :
    firstTies seen ts = ts.map Tie.edge := by
  induction ts generalizing seen with
  | nil => rfl
  | cons t r ih =>
      obtain ⟨ht, hr⟩ := List.pairwise_cons.mp hts
      obtain ⟨hfirst, hrest⟩ := List.forall_mem_cons.mp hseen
      rw [firstTies, if_neg (by simpa using hfirst), List.map_cons, ih hr]
      intro u hu
      rw [List.any_cons, ht u hu, hrest u hu]
      rfl

/-- Whether an edge is of a relation and leaves the node of a text. -/
def leavesBy (r : Relation) (k : String) (e : Edge) : Bool :=
  decide (e.relation = r) && e.source.alike (.str k)

theorem leavesBy_eq_true {r : Relation} {k : String} {e : Edge} :
    leavesBy r k e = true ↔ e.relation = r ∧ e.source = .str k := by
  rw [leavesBy, Bool.and_eq_true, decide_eq_true_eq, Json.alike_str_right]

theorem leavesBy_of_agrees (r : Relation) (k : String) {t u : Tie} (h : t.agrees u = true) :
    leavesBy r k t.edge = leavesBy r k u.edge := by
  simp only [Tie.agrees, Bool.and_eq_true, decide_eq_true_eq] at h
  obtain ⟨⟨⟨hsource, -⟩, hrelation⟩, -⟩ := h
  rw [Bool.eq_iff_iff, leavesBy_eq_true, leavesBy_eq_true, hrelation]
  refine and_congr_right fun _ => ⟨fun ht => ?_, fun hu => ?_⟩
  · rw [ht] at hsource
    exact Json.alike_str_left.mp hsource
  · rw [hu] at hsource
    exact Json.alike_str_right.mp hsource

end Ties

variable {c g : PolicyGraph} {gs : List PolicyGraph} {cfg : Settings} {p : Plan}

section Edges

/-- Edges that leave a node to different nodes are all kept in a composed graph, in their order. -/
theorem IsComposedOf.filter_edges (h : c.IsComposedOf gs) {r : Relation} {k : String}
    (htargets : ((gs.flatMap PolicyGraph.edges).filter (leavesBy r k)).Pairwise fun e e' =>
      e'.target.alike e.target = false) :
    List.Forall₂ (fun e e' => ∃ m, e' = { e with id := Edge.numbered m })
      ((gs.flatMap PolicyGraph.edges).filter (leavesBy r k)) (c.edges.filter (leavesBy r k)) := by
  obtain ⟨ts, hts, hes⟩ := Attempt.map_eq_ok.mp h.edges
  obtain ⟨hedges, -⟩ := tiesOf_eq_ok hts
  have hfiltered : (gs.flatMap PolicyGraph.edges).filter (leavesBy r k) =
      (ts.filter fun t => leavesBy r k t.edge).map Tie.edge := by
    rw [← hedges, List.filter_map]
    rfl
  have hpairwise : (ts.filter fun t => leavesBy r k t.edge).Pairwise fun t u =>
      u.agrees t = false := by
    rw [hfiltered, List.pairwise_map] at htargets
    refine htargets.imp fun htu => ?_
    simp [Tie.agrees, htu]
  have hkept : (firstTies [] ts).filter (leavesBy r k) =
      (gs.flatMap PolicyGraph.edges).filter (leavesBy r k) := by
    rw [filter_firstTies (fun _ _ => leavesBy_of_agrees r k), hfiltered]
    exact firstTies_eq_map hpairwise [] fun _ _ => rfl
  rw [← hes, ← hkept]
  exact filter_renumber (fun _ _ => rfl) 0 _

/-- What is drawn for the requirements and the clauses of a policy. -/
theorem drafts_of_policy {x : Draft} (hx : x ∈ p.drafts) {a : String}
    (hsource : x.source = Node.policyKey a)
    (hrelation : x.relation = .requires ∨ x.relation = .contains) :
    ∃ d ∈ p.documents, d.policy = a ∧ x.label = .plain ∧
      (x.relation = .requires → ∃ t ∈ d.prerequisites, x.target = Node.policyKey t) ∧
      (x.relation = .contains → ∃ c ∈ d.clauses, x.target = Node.clauseKey c.id) := by
  rcases Plan.mem_drafts.mp hx with
    ⟨d, hd, c, hc, rfl⟩ | ⟨d, hd, hl⟩ | ⟨q, hq, ho | hl⟩ | ⟨d, hd, hm⟩
  · exact ⟨d, hd, by simpa using hsource, rfl, by simp, fun _ => ⟨c, hc, rfl⟩⟩
  · obtain ⟨c, -, rfl⟩ := List.mem_map.mp hl
    simp at hrelation
  · have hclause := Node.clauseKey_ne_policyKey
    have hcondition := Node.conditionKey_ne_policyKey
    unfold Plan.ownDrafts Plan.clauseDrafts Plan.operandDrafts at ho
    grind
  · obtain ⟨c, -, rfl⟩ := List.mem_map.mp hl
    simp at hrelation
  · rcases List.mem_append.mp hm with hm | hm
    · obtain ⟨t, ht, rfl⟩ := List.mem_map.mp hm
      exact ⟨d, hd, by simpa using hsource, rfl,
        fun _ => ⟨t, (Plan.mem_firstTexts.mp ht).1, rfl⟩, by simp⟩
    · obtain ⟨t, -, rfl⟩ := List.mem_map.mp hm
      simp at hrelation

/-- The edges by which a policy requires policies or contains clauses lead to different nodes. -/
theorem IsDrawnFrom.pairwise_targets (h : g.IsDrawnFrom cfg p) {d : Document}
    (hd : d ∈ p.documents) {r : Relation} (hr : r = .requires ∨ r = .contains) :
    (g.edges.filter (leavesBy r (Node.policyKey d.policy))).Pairwise fun e e' =>
      e'.target.alike e.target = false := by
  have hnode := hasNode_of_node? (h.node?_policy hd)
  obtain ⟨es, hes, hall⟩ := h.outEdges_forall₂ hnode r
  obtain rfl : g.edges.filter (leavesBy r (Node.policyKey d.policy)) = es :=
    Except.ok.inj ((outEdges_eq hnode r).symm.trans hes)
  have hnodup : (p.drawn.filter fun x => decide (x.relation = r) &&
      decide (x.source = Node.policyKey d.policy)).Nodup := (Draft.firsts_nodup _ _).filter _
  have hmem := (List.forall₂_and_left _ _).mpr ⟨fun x hx => List.mem_filter.mp hx, hall⟩
  refine Attempt.pairwise_right hmem hnodup ?_
  rintro x y e e' ⟨⟨hx, hxof⟩, m, rfl⟩ ⟨⟨hy, hyof⟩, n, rfl⟩ hne
  simp only [Bool.and_eq_true, decide_eq_true_eq] at hxof hyof
  obtain ⟨-, -, -, hlabel, -⟩ := drafts_of_policy (Plan.mem_drawn.mp hx) hxof.2 (hxof.1 ▸ hr)
  obtain ⟨-, -, -, hlabel', -⟩ := drafts_of_policy (Plan.mem_drawn.mp hy) hyof.2 (hyof.1 ▸ hr)
  rw [Bool.eq_false_iff]
  intro htarget
  refine hne ?_
  have htarget : y.target = x.target := Json.str.inj (Json.alike_str_right.mp htarget)
  obtain ⟨xs, xt, xr, xl⟩ := x
  obtain ⟨ys, yt, yr, yl⟩ := y
  simp_all

/-- A graph that does not declare a policy has no requirements or clauses of it. -/
theorem IsDrawnFrom.filter_edges_eq_nil (h : g.IsDrawnFrom cfg p) {a : String}
    (ha : ¬ g.IsInternal a) {r : Relation} (hr : r = .requires ∨ r = .contains) :
    g.edges.filter (leavesBy r (Node.policyKey a)) = [] := by
  refine List.filter_eq_nil_iff.mpr fun e he hleaves => ha ?_
  obtain ⟨hrelation, hsource⟩ := leavesBy_eq_true.mp hleaves
  obtain ⟨m, x, hx, rfl⟩ := h.mem_edges.mp he
  have hrelation : x.relation = r := hrelation
  obtain ⟨d, hd, rfl, -⟩ := drafts_of_policy (Plan.mem_drawn.mp (List.mem_of_getElem? hx))
    (Json.str.inj hsource) (hrelation ▸ hr)
  exact h.isInternal_iff.mpr (List.mem_map_of_mem hd)

end Edges

section Policies

/-- Whether no policy is declared by both of two graphs. -/
def SharesNoPolicy (g h : PolicyGraph) : Prop := ∀ a, g.IsInternal a → ¬ h.IsInternal a

/-- What a policy requires and contains is said by the graph that declares it. -/
theorem filter_edges_of_policy (hdrawn : ∀ g ∈ gs, ∃ cfg p, g.IsDrawnFrom cfg p)
    (hpolicies : gs.Pairwise SharesNoPolicy) (hg : g ∈ gs) {a : String} (ha : g.IsInternal a)
    {r : Relation} (hr : r = .requires ∨ r = .contains) :
    (gs.flatMap PolicyGraph.edges).filter (leavesBy r (Node.policyKey a)) =
      g.edges.filter (leavesBy r (Node.policyKey a)) := by
  obtain ⟨before, after, rfl⟩ := List.append_of_mem hg
  obtain ⟨-, hafter, hbefore⟩ := List.pairwise_append.mp hpolicies
  have hnone : ∀ hs : List PolicyGraph, (∀ h ∈ hs, h ∈ before ++ g :: after) →
      (∀ h ∈ hs, ¬ h.IsInternal a) →
      (hs.flatMap PolicyGraph.edges).filter (leavesBy r (Node.policyKey a)) = [] := by
    intro hs hsub hother
    rw [List.filter_flatMap, List.flatMap_eq_nil_iff]
    intro h hh
    obtain ⟨cfg, p, hp⟩ := hdrawn h (hsub h hh)
    exact hp.filter_edges_eq_nil (hother h hh) hr
  rw [List.flatMap_append, List.flatMap_cons, List.filter_append, List.filter_append,
    hnone before (fun h hh => List.mem_append_left _ hh) fun h hh hi =>
      hbefore h hh g List.mem_cons_self a hi ha,
    hnone after (fun h hh => List.mem_append_right _ (List.mem_cons_of_mem _ hh)) fun h hh =>
      (List.pairwise_cons.mp hafter).1 h hh a ha,
    List.nil_append, List.append_nil]

/-- The edges by which a policy requires and contains are those of the graph that declares it, up
to their numbers. -/
theorem IsUnionOf.outEdges_policy (h : c.IsUnionOf gs) (hpolicies : gs.Pairwise SharesNoPolicy)
    (hg : g ∈ gs) (hp : g.IsDrawnFrom cfg p) {d : Document} (hd : d ∈ p.documents) {r : Relation}
    (hr : r = .requires ∨ r = .contains) :
    ∃ es es', g.outEdges (.str (Node.policyKey d.policy)) (some r) = .ok es ∧
      c.outEdges (.str (Node.policyKey d.policy)) (some r) = .ok es' ∧
      List.Forall₂ (fun e e' => e'.target = e.target) es es' ∧
      ∀ e ∈ es, ∃ x ∈ p.drafts, x.source = Node.policyKey d.policy ∧ x.relation = r ∧
        e.target = .str x.target := by
  have ha : g.IsInternal d.policy := hp.isInternal_iff.mpr (List.mem_map_of_mem hd)
  have hsame := filter_edges_of_policy h.isDrawn hpolicies hg ha hr
  have hkept := h.composed.filter_edges (r := r) (k := Node.policyKey d.policy)
    (by rw [hsame]; exact hp.pairwise_targets hd hr)
  rw [hsame] at hkept
  refine ⟨_, _, outEdges_eq (hasNode_of_node? (hp.node?_policy hd)) r,
    outEdges_eq (hasNode_of_node? (h.node?_policy hg hp hd)) r, hkept.imp ?_, fun e he => ?_⟩
  · rintro e e' ⟨m, rfl⟩
    rfl
  · obtain ⟨hmem, hleaves⟩ := List.mem_filter.mp he
    obtain ⟨hrelation, hsource⟩ := leavesBy_eq_true.mp hleaves
    obtain ⟨m, x, hx, rfl⟩ := hp.mem_edges.mp hmem
    exact ⟨x, Plan.mem_drawn.mp (List.mem_of_getElem? hx), Json.str.inj hsource, hrelation, rfl⟩

theorem filterMap_eq_of_forall₂ {α β γ : Type} {f : α → Option γ} {k : β → Option γ} {xs : List α}
    {ys : List β} (h : List.Forall₂ (fun x y => k y = f x) xs ys) :
    ys.filterMap k = xs.filterMap f := by
  induction h with
  | nil => rfl
  | cons hxy _ ih => rw [List.filterMap_cons, List.filterMap_cons, hxy, ih]

/-- A policy requires the same policies in the composed graph, where these stand for themselves. -/
theorem IsUnionOf.requiredPolicies_eq (h : c.IsUnionOf gs)
    (hpolicies : gs.Pairwise SharesNoPolicy) (hg : g ∈ gs) (hp : g.IsDrawnFrom cfg p)
    {d : Document} (hd : d ∈ p.documents)
    (hnodes : ∀ t ∈ d.prerequisites,
      c.node? (.str (Node.policyKey t)) = g.node? (.str (Node.policyKey t))) :
    c.requiredPolicies (.str d.policy) = g.requiredPolicies (.str d.policy) := by
  obtain ⟨es, es', hes, hes', hall, hdrafts⟩ :=
    h.outEdges_policy hpolicies hg hp hd (.inl (rfl : Relation.requires = .requires))
  rw [requiredPolicies, requiredPolicies, Node.policyId_str, hes, hes', Attempt.ok_bind,
    Attempt.ok_bind]
  refine congrArg Except.ok (filterMap_eq_of_forall₂ ?_)
  refine ((List.forall₂_and_left _ _).mpr ⟨hdrafts, hall⟩).imp ?_
  rintro e e' ⟨⟨x, hx, hsource, hrelation, htarget⟩, hsame⟩
  obtain ⟨d', hd', hpolicy, -, hrequires, -⟩ := drafts_of_policy hx hsource (.inl hrelation)
  obtain rfl := Plan.document_eq hp.sound hd' hd hpolicy
  obtain ⟨t, ht, htx⟩ := hrequires hrelation
  rw [targetOf?, targetOf?, hsame, htarget, htx, hnodes t ht]

/-- A policy contains the same clauses in the composed graph. -/
theorem IsUnionOf.clausesOf_eq (h : c.IsUnionOf gs) (hpolicies : gs.Pairwise SharesNoPolicy)
    (hg : g ∈ gs) (hp : g.IsDrawnFrom cfg p) {d : Document} (hd : d ∈ p.documents) :
    c.clausesOf (.str d.policy) = g.clausesOf (.str d.policy) := by
  obtain ⟨es, es', hes, hes', hall, hdrafts⟩ :=
    h.outEdges_policy hpolicies hg hp hd (.inr (rfl : Relation.contains = .contains))
  rw [clausesOf, clausesOf, Node.policyId_str, hes, hes', Attempt.ok_bind, Attempt.ok_bind]
  refine congrArg Except.ok (filterMap_eq_of_forall₂ ?_)
  refine ((List.forall₂_and_left _ _).mpr ⟨hdrafts, hall⟩).imp ?_
  rintro e e' ⟨⟨x, hx, hsource, hrelation, htarget⟩, hsame⟩
  obtain ⟨d', hd', hpolicy, -, -, hcontains⟩ := drafts_of_policy hx hsource (.inr hrelation)
  obtain rfl := Plan.document_eq hp.sound hd' hd hpolicy
  obtain ⟨k, hk, hkx⟩ := hcontains hrelation
  -- the clause has a node in the graph, and so one in the composed graph
  obtain ⟨n, hn, hid⟩ : ∃ n ∈ g.nodes, n.id = .str (Node.clauseKey k.id) := by
    rw [hp.nodes]
    exact Node.exists_mem_firsts (Plan.mem_layout.mpr (.inr (.inl ⟨d', hd', k, hk, rfl⟩))) rfl
      (List.forall_mem_nil _)
  obtain ⟨m, hm, -⟩ := h.composed.exists_stands hg hn hid
  have hclause : ∀ {g' : PolicyGraph} {n' : Node}, g'.IsLegible →
      g'.node? (.str (Node.clauseKey k.id)) = some n' →
      (g'.node? (.str (Node.clauseKey k.id))).filter (fun n => n.kind = .clause) = some n' ∧
        n'.ownClause = .str k.id := by
    intro g' n' hlegible hn'
    obtain ⟨hmem, hid⟩ := node?_spec hn'
    have hkind := hlegible.clauseKey n' hmem _ hid
    obtain ⟨c', hown, hid'⟩ := hlegible.clause n' hmem hkind
    obtain rfl : k.id = c' := Node.clauseKey_inj.mp (Json.str.inj (hid.symm.trans hid'))
    exact ⟨by simp [hn', hkind], hown⟩
  obtain ⟨hleft, hown⟩ := hclause hp.isLegible (hp.isLegible.node?_of_mem hn hid)
  obtain ⟨hright, hown'⟩ := hclause h.isLegible hm
  rw [targetOf?, targetOf?, hsame, htarget, hkx, hleft, hright, Option.map_some, Option.map_some,
    hown, hown']

/-- Whether a policy is mentioned in a graph that does not declare it. -/
def IsPlaceholder (g : PolicyGraph) (a : String) : Prop :=
  ∃ n ∈ g.nodes, n.kind = .policy ∧ n.isExternal = true ∧ n.policy = .str a

/-- What a declared policy requires is declared or mentioned only. -/
theorem IsDrawnFrom.isPlaceholder_of_requires (h : g.IsDrawnFrom cfg p) {a b : String}
    (hab : g.Requires a b) (hb : ¬ g.IsInternal b) : g.IsPlaceholder b := by
  obtain ⟨d, hd, -, hmem⟩ := h.requires_iff.mp hab
  rcases h.node?_required hd hmem with ⟨e, he, rfl, -⟩ | ⟨-, hn⟩
  · exact absurd (h.isInternal_iff.mpr (List.mem_map_of_mem he)) hb
  · exact ⟨_, (node?_spec hn).1, rfl, Plan.externalNode_isExternal _, Plan.externalNode_policy _⟩

theorem IsDrawnFrom.isInternal_of_reachable (h : g.IsDrawnFrom cfg p) {a b : String}
    (ha : g.IsInternal a) (hnone : ∀ b, Relation.ReflTransGen g.Requires a b → ¬ g.IsPlaceholder b)
    (hab : Relation.ReflTransGen g.Requires a b) : g.IsInternal b := by
  rcases Relation.ReflTransGen.cases_tail hab with rfl | ⟨x, -, hxb⟩
  · exact ha
  · by_contra hb
    exact hnone b hab (h.isPlaceholder_of_requires hxb hb)

/-- A graph and the composed one concur on policies that need nothing from other graphs. -/
theorem IsUnionOf.concurs (h : c.IsUnionOf gs) (hpolicies : gs.Pairwise SharesNoPolicy)
    (hg : g ∈ gs) (hp : g.IsDrawnFrom cfg p) {a : String} (ha : g.IsInternal a)
    (hnone : ∀ b, Relation.ReflTransGen g.Requires a b → ¬ g.IsPlaceholder b) (inputs : Inputs) :
    ∀ d ∈ p.documents, Relation.ReflTransGen g.Requires a d.policy →
      g.Concurs c p inputs inputs d := by
  intro d hd hreach
  have hnodes : ∀ t ∈ d.prerequisites,
      c.node? (.str (Node.policyKey t)) = g.node? (.str (Node.policyKey t)) := by
    intro t ht
    have hrequires : g.Requires d.policy t := hp.requires_iff.mpr ⟨d, hd, rfl, ht⟩
    obtain ⟨e, he, rfl⟩ := List.mem_map.mp
      (hp.isInternal_iff.mp (hp.isInternal_of_reachable ha hnone (hreach.tail hrequires)))
    rw [h.node?_policy hg hp he, hp.node?_policy he]
  refine ⟨h.requiredPolicies_eq hpolicies hg hp hd hnodes, h.clausesOf_eq hpolicies hg hp hd,
    fun t ht => ?_, fun _ _ _ => rfl⟩
  rw [Node.policyId_str, node, node, hnodes t ht]

end Policies

section Placeholders

/-- A policy that is mentioned only is not declared. -/
theorem IsDrawnFrom.not_isInternal_of_isPlaceholder (h : g.IsDrawnFrom cfg p) {a : String}
    (ha : g.IsPlaceholder a) : ¬ g.IsInternal a := by
  obtain ⟨n, hn, hkind, hexternal, hpolicy⟩ := ha
  intro hi
  obtain ⟨d, hd, rfl⟩ := List.mem_map.mp (h.isInternal_iff.mp hi)
  rcases h.eq_of_policy hn hkind with ⟨e, he, rfl⟩ | ⟨e, -, t, ht, rfl⟩
  · simp at hexternal
  · rw [Plan.externalNode_policy] at hpolicy
    obtain rfl := Json.str.inj hpolicy
    exact (Plan.mem_undeclared.mp ht).2 (List.mem_map_of_mem hd)

/-- A policy of a composed graph is mentioned only where no graph declares it. -/
theorem IsUnionOf.isPlaceholder_iff (h : c.IsUnionOf gs) {a : String} :
    c.IsPlaceholder a ↔ (∃ g ∈ gs, g.IsPlaceholder a) ∧ ∀ g ∈ gs, ¬ g.IsInternal a := by
  constructor
  · rintro ⟨n, hn, hkind, hexternal, hpolicy⟩
    obtain ⟨g, hg, hmem⟩ := h.exists_of_mem hn
    refine ⟨⟨g, hg, n, hmem, hkind, hexternal, hpolicy⟩, fun g' hg' hi => ?_⟩
    -- a graph that declares the policy puts its node in the place of this one
    obtain ⟨cfg', p', hp'⟩ := h.isDrawn g' hg'
    obtain ⟨d, hd, rfl⟩ := List.mem_map.mp (hp'.isInternal_iff.mp hi)
    obtain ⟨b, hb, hid⟩ := h.isLegible.policy n hn hkind
    obtain rfl : b = d.policy := Json.str.inj (hb.symm.trans hpolicy)
    have hnode := (h.isLegible.node?_of_mem hn hid).symm.trans (h.node?_policy hg' hp' hd)
    rw [Option.some.inj hnode] at hexternal
    simp at hexternal
  · rintro ⟨⟨g, hg, n, hn, hkind, -, hpolicy⟩, hnone⟩
    obtain ⟨b, hb, hid⟩ := (h.isLegible_of_mem hg).policy n hn hkind
    obtain rfl : b = a := Json.str.inj (hb.symm.trans hpolicy)
    obtain ⟨m, hm, -⟩ := h.composed.exists_stands hg hn hid
    rcases h.cases_policy hm with ⟨g', hg', hmem, hkind', hexternal'⟩ | rfl
    · obtain ⟨b', hb', hid'⟩ := (h.isLegible_of_mem hg').policy m hmem hkind'
      obtain rfl : b = b' := Node.policyKey_inj.mp
        (Json.str.inj ((node?_spec hm).2.symm.trans hid'))
      refine absurd (List.mem_map.mpr ⟨m, ?_, hb'⟩) (hnone g' hg')
      simp [policies, nodesOfKind, hmem, hkind', hexternal']
    · exact ⟨_, (node?_spec hm).1, rfl, Plan.externalNode_isExternal _, Plan.externalNode_policy _⟩

end Placeholders

section Conservation

theorem evaluate_eq_of_run {settings : Settings} {a : String}
    (hrun : ∀ inputs, c.run settings inputs (.str a) = g.run settings inputs (.str a))
    (inputs : Json) : c.evaluate settings (.str a) inputs = g.evaluate settings (.str a) inputs := by
  cases hes : Fault.mappingOrEmpty inputs with
  | error f => simp only [evaluate, hes]
  | ok es =>
      cases hq : Query.check (.str a) es with
      | flawed fs => simp only [evaluate, answerChecked, hes, hq]
      | ok q =>
          obtain ⟨hpolicy, -⟩ := Query.check_eq_ok hq
          rw [evaluate_eq_answer settings c hes hq, evaluate_eq_answer settings g hes hq, answer,
            answer, ← hpolicy, hrun]

/-- Composition of compiled graphs that declare different policies and share no rules is a
conservative extension.  A declared policy within whose reach no policy is mentioned only gets the
same verdict, or the same fault, for all inputs; and a policy of the composed graph is mentioned
only exactly where a graph mentions it and none declares it. -/
theorem evaluate_composed
    (hgs : ∀ g ∈ gs, ∃ cfg payload, (RuleSet.compile cfg payload).outcome = .ok g)
    (hpolicies : gs.Pairwise SharesNoPolicy) (hrules : gs.Pairwise SharesNoRule)
    (hc : compose gs = .ok c) :
    (∀ g ∈ gs, ∀ a, g.IsInternal a →
      (∀ b, Relation.ReflTransGen g.Requires a b → ¬ g.IsPlaceholder b) →
      ∀ (settings : Settings) (inputs : Json),
        c.evaluate settings (.str a) inputs = g.evaluate settings (.str a) inputs) ∧
    ∀ a, c.IsPlaceholder a ↔ (∃ g ∈ gs, g.IsPlaceholder a) ∧ ∀ g ∈ gs, ¬ g.IsInternal a := by
  have hcompiled : ∀ g ∈ gs, ∃ cfg, g.IsCompiled cfg := by
    intro g hg
    obtain ⟨cfg, payload, hg⟩ := hgs g hg
    exact ⟨cfg, isCompiled_of_compile hg⟩
  rcases isComposedOf_of_compose hcompiled hc with rfl | hcomposed
  · -- a single graph is left as it is
    obtain ⟨cfg, hcfg⟩ := hcompiled c (by simp)
    obtain ⟨p, hp⟩ := hcfg.exists_isDrawnFrom
    refine ⟨fun g hg a _ _ settings inputs => by rw [List.mem_singleton.mp hg], fun a => ?_⟩
    simpa using hp.not_isInternal_of_isPlaceholder
  · have hdrawn : ∀ g ∈ gs, ∃ cfg p, g.IsDrawnFrom cfg p ∧ AreNamed p.documents := by
      intro g hg
      obtain ⟨cfg, payload, hg⟩ := hgs g hg
      exact ⟨cfg, exists_named_plan hg⟩
    have h : c.IsUnionOf gs := ⟨hcomposed, hdrawn, hrules⟩
    refine ⟨fun g hg a ha hnone settings inputs => ?_, fun a => h.isPlaceholder_iff⟩
    obtain ⟨cfg, p, hp⟩ := h.isDrawn g hg
    refine evaluate_eq_of_run (fun given => ?_) inputs
    have hnode : c.node? (.str (Node.policyKey a)) = g.node? (.str (Node.policyKey a)) := by
      obtain ⟨d, hd, rfl⟩ := List.mem_map.mp (hp.isInternal_iff.mp ha)
      rw [h.node?_policy hg hp hd, hp.node?_policy hd]
    exact hp.run_eq (h.hasTreesOf hg hp) (h.concurs hpolicies hg hp ha hnone given) ha hnode
      (hp.length_documents_le.trans (h.length_nodes_le hg)) settings

end Conservation

section Witness

/-- A policy with one rule that requires no other policy. -/
def standing (a : String) : RuleSet where
  rules := [.node { id := a, subject := "status", operator := .eq, value := some (.text a),
                    clause := a, confidence := some Number.one } []]
  documents := [{ policy := a, clauses := [{ id := a }] }]

def standingPlan (a : String) : Plan := ⟨(standing a).documents, (standing a).rules.map (a, ·)⟩

/-- The payload of a policy with one rule that requires no other policy. -/
def standingPayload (a : String) : Json :=
  .obj [("rules", .arr [.obj [("rule_id", .str a), ("variable", .str "status"),
      ("operator", .str "EQ"), ("value", .str a), ("clause_reference", .str a),
      ("confidence", .float Number.one)]]),
    ("documents", .arr [.obj [("policy_id", .str a),
      ("clauses", .arr [.obj [("clause_id", .str a)]])]])]

theorem exists_standing : ∃ g,
    (RuleSet.compile .standard (standingPayload "b")).outcome = .ok g ∧
      g.IsDrawnFrom .standard (standingPlan "b") := by
  obtain ⟨g, hvalid, hbuild, hdrawn⟩ : ∃ g, (standing "b").validate .standard = .ok (standing "b") ∧
      ((standing "b").build .standard).outcome = .ok g ∧
      g.IsDrawnFrom .standard (standingPlan "b") :=
    exists_build (by decide +kernel) rfl (by decide +kernel)
  exact ⟨g, (outcome_compile (s := standing "b") rfl hvalid).trans hbuild, hdrawn⟩

/-- A policy that requires no other one has no placeholder within its reach. -/
theorem IsDrawnFrom.not_isPlaceholder_standing {a x : String} {g : PolicyGraph}
    (h : g.IsDrawnFrom .standard (standingPlan a)) (hx : Relation.ReflTransGen g.Requires a x) :
    ¬ g.IsPlaceholder x := by
  have hself : x = a := by
    rcases Relation.ReflTransGen.cases_head hx with rfl | ⟨y, hy, -⟩
    · rfl
    · obtain ⟨d, hd, -, hmem⟩ := h.requires_iff.mp hy
      simp only [standingPlan, standing, List.mem_singleton] at hd
      simp [hd] at hmem
  have ha : g.IsInternal a := h.isInternal_iff.mpr List.mem_cons_self
  exact fun hplaceholder => h.not_isInternal_of_isPlaceholder hplaceholder (hself ▸ ha)

/-- A policy that another graph requires is evaluated in the composed graph as in its own, and is no
longer mentioned only. -/
theorem evaluate_composed_standing : ∃ g h c : PolicyGraph,
    (RuleSet.compile .standard (standingPayload "b")).outcome = .ok g ∧
    (RuleSet.compile .standard (demandingPayload "a" "b")).outcome = .ok h ∧
    [g, h].Pairwise SharesNoPolicy ∧ [g, h].Pairwise SharesNoRule ∧ compose [g, h] = .ok c ∧
    g.IsInternal "b" ∧ (∀ x, Relation.ReflTransGen g.Requires "b" x → ¬ g.IsPlaceholder x) ∧
    (∀ inputs, c.evaluate .standard (.str "b") inputs = g.evaluate .standard (.str "b") inputs) ∧
    h.IsPlaceholder "b" ∧ ¬ c.IsPlaceholder "b" := by
  obtain ⟨g, hg, hp⟩ := exists_standing
  obtain ⟨h, hh, hq⟩ : ∃ h, (RuleSet.compile .standard (demandingPayload "a" "b")).outcome = .ok h ∧
      h.IsDrawnFrom .standard (demandingPlan "a" "b") :=
    exists_demanding rfl (by decide +kernel) rfl (by decide +kernel)
  have hcompiled : ∀ x ∈ [g, h], ∃ cfg payload, (RuleSet.compile cfg payload).outcome = .ok x := by
    simpa using ⟨⟨_, _, hg⟩, _, _, hh⟩
  have hok : (composeNodes 0 [] [g, h]).isOk = true := by
    simp only [composeNodes, hp.nodes, hq.nodes]
    decide +kernel
  obtain ⟨c, hc⟩ := exists_compose_of_isOk (fun x hx => by
    obtain ⟨cfg, payload, hx⟩ := hcompiled x hx
    exact (isCompiled_of_compile hx).isTextual) hok
  have hpolicies : [g, h].Pairwise SharesNoPolicy := by
    refine List.pairwise_pair.mpr fun x hx hy => ?_
    obtain rfl : x = "b" := by simpa [standingPlan, standing] using hp.isInternal_iff.mp hx
    simpa [demandingPlan, demanding] using hq.isInternal_iff.mp hy
  have hrules : [g, h].Pairwise SharesNoRule := by
    refine List.pairwise_pair.mpr fun m hm n hn hmkind hnkind => ?_
    obtain ⟨x, hx, rfl⟩ := hp.eq_of_condition hm hmkind
    obtain ⟨y, hy, rfl⟩ := hq.eq_of_condition hn hnkind
    rw [List.mem_singleton.mp hx, List.mem_singleton.mp hy]
    simp [Rule.head]
  have hb : g.IsInternal "b" := hp.isInternal_iff.mpr List.mem_cons_self
  have hnone : ∀ x, Relation.ReflTransGen g.Requires "b" x → ¬ g.IsPlaceholder x :=
    fun _ => hp.not_isPlaceholder_standing
  have hrequired : h.IsPlaceholder "b" := by
    refine hq.isPlaceholder_of_requires (hq.requires_iff.mpr
      ⟨_, List.mem_cons_self, rfl, List.mem_cons_self⟩) fun hi => ?_
    simpa [demandingPlan, demanding] using hq.isInternal_iff.mp hi
  obtain ⟨hevaluate, hplaceholders⟩ := evaluate_composed hcompiled hpolicies hrules hc
  refine ⟨g, h, c, hg, hh, hpolicies, hrules, hc, hb, hnone,
    hevaluate g (by simp) "b" hb hnone .standard, hrequired, fun hplaceholder => ?_⟩
  exact ((hplaceholders "b").mp hplaceholder).2 g (by simp) hb

end Witness

end PolicyGraph
end Eligibility
