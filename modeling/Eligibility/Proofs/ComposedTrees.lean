import Eligibility.Proofs.Composition
/-!
# Rule trees in composed graphs

**Links.**  An edge from a policy or a rule to a rule below it says its position.  In a
composed graph the links of a node are those of all graphs, each once.

**Trees.**  Nodes that agree have the same operator, but nothing asks whether the
rules below them agree.  A node keeps its children exactly where no other graph
has children of it that these do not begin with.

**Results.**
* `tieText_inj`: the text of a link tells its position.
* `exists_links`: the links of a node in a composed graph.
* `children_compose_iff`: when a node keeps its children.
-/

namespace Eligibility

section Texts

/-- The label of the link of a policy, or of a rule with an operator, at a position. -/
def linkLabel : Option Operator → Nat → Label
  | none, i => .root i
  | some o, i => .operand o i

theorem sortTexts_root : Name.sortTexts ["operator", "position"] = ["operator", "position"] := by
  simp [Name.sortTexts, List.mergeSort, List.MergeSort.Internal.splitInTwo]

theorem sortTexts_operand :
    Name.sortTexts ["operator", "position", "negated"] = ["negated", "operator", "position"] := by
  simp [Name.sortTexts, List.mergeSort, List.MergeSort.Internal.splitInTwo]

/-- The fields of a link in rising order of their names. -/
def linkFields : Option Operator → Nat → List (String × Json)
  | none, i => [("operator", .str Operator.and.name), ("position", Json.nat i)]
  | some o, i =>
      [("negated", .bool (o = .not)), ("operator", .str o.name), ("position", Json.nat i)]

theorem tieText_link {e : Edge} {o : Option Operator} {i : Nat}
    (he : e.properties = Entries.ofFields (linkLabel o i).properties) :
    PolicyGraph.tieText e = .ok (Json.compact (.obj (linkFields o i))) := by
  cases o with
  | none =>
      have hsort : Name.sort? [Json.str "operator", .str "position"] =
          some [Json.str "operator", .str "position"] := by
        have := Name.sort?_strs ["operator", "position"]
        rwa [sortTexts_root] at this
      simp [PolicyGraph.tieText, he, linkLabel, Label.properties, Entries.ofFields, Fault.sorted,
        hsort, Entries.valueOf?, linkFields, Json.sorted, Name.key, Json.nat]
  | some o =>
      have hsort : Name.sort? [Json.str "operator", .str "position", .str "negated"] =
          some [Json.str "negated", .str "operator", .str "position"] := by
        have := Name.sort?_strs ["operator", "position", "negated"]
        rwa [sortTexts_operand] at this
      simp [PolicyGraph.tieText, he, linkLabel, Label.properties, Entries.ofFields, Fault.sorted,
        hsort, Entries.valueOf?, linkFields, Json.sorted, Name.key, Json.nat]

/-- The text of a link tells its position. -/
theorem tieText_inj {o : Option Operator} {i j : Nat}
    (h : Json.compact (.obj (linkFields o i)) = Json.compact (.obj (linkFields o j))) : i = j := by
  have hdigits : ∀ k : Nat, Decimal.ofInt (k : Int) = Decimal.digitsOf k := by
    intro k
    simp [Decimal.ofInt]
  refine Decimal.digitsOf_inj ?_
  cases o with
  | none =>
      simpa [Json.compact, Json.compactChars, linkFields, Json.compactFields, Json.scalarText,
        Json.nat, hdigits, String.ofList_inj] using h
  | some o =>
      simpa [Json.compact, Json.compactChars, linkFields, Json.compactFields, Json.scalarText,
        Json.nat, hdigits, String.ofList_inj] using h

end Texts

section Links

/-- Whether an edge is the link of a node to a rule at a position. -/
structure IsLink (k : String) (o : Option Operator) (e : Edge) (c : String × Nat) : Prop where
  source : e.source = .str k
  target : e.target = .str (Node.conditionKey c.1)
  relation : e.relation = .dependsOn
  properties : e.properties = Entries.ofFields (linkLabel o c.2).properties

variable {k : String} {o : Option Operator} {e : Edge} {c : String × Nat}

theorem IsLink.position (h : IsLink k o e c) : e.position = .ok (c.2 : Int) := by
  rw [Edge.position, h.properties, Entries.get?_ofFields]
  cases o <;> simp [linkLabel, Label.properties, List.lookup_cons, Json.nat]

theorem IsLink.isNegated (h : IsLink k o e c) : e.isNegated = decide (o = some .not) := by
  rw [Edge.isNegated, Edge.get, h.properties, Entries.get?_ofFields]
  cases o <;> simp [linkLabel, Label.properties, List.lookup_cons, Json.truthy]

/-- An edge is the link to one rule only. -/
theorem IsLink.unique {d : String × Nat} (h : IsLink k o e c) (h' : IsLink k o e d) : c = d := by
  refine Prod.ext ?_ ?_
  · simpa using h.target.symm.trans h'.target
  · have := Except.ok.inj (h.position.symm.trans h'.position)
    omega

/-- Links of a node agree where they lead to one rule at one position. -/
theorem IsLink.agrees_iff {t u : PolicyGraph.Tie} {c d : String × Nat} (hc : IsLink k o t.edge c)
    (hd : IsLink k o u.edge d) (ht : PolicyGraph.tieText t.edge = .ok t.text)
    (hu : PolicyGraph.tieText u.edge = .ok u.text) : t.agrees u = true ↔ c = d := by
  rw [tieText_link hc.properties] at ht
  rw [tieText_link hd.properties] at hu
  have htext : t.text = u.text ↔ c.2 = d.2 := by
    rw [← Except.ok.inj ht, ← Except.ok.inj hu]
    exact ⟨tieText_inj, fun h => by rw [h]⟩
  have htarget : (Json.str (Node.conditionKey c.1)).alike (.str (Node.conditionKey d.1)) = true ↔
      c.1 = d.1 := by
    rw [Json.alike_str_left, Json.str.injEq, Node.conditionKey_inj, eq_comm]
  rw [PolicyGraph.Tie.agrees, hc.source, hd.source, hc.target, hd.target, hc.relation, hd.relation]
  simp only [Bool.and_eq_true, decide_eq_true_eq, htext, htarget, Json.alike_str_left, true_and,
    and_true]
  exact Prod.ext_iff.symm

theorem isLink_toEdge (c : String × Nat) (n : Nat) :
    IsLink k o (Draft.toEdge n ⟨k, Node.conditionKey c.1, .dependsOn, linkLabel o c.2⟩) c :=
  ⟨rfl, rfl, rfl, rfl⟩

namespace PolicyGraph

/-- A graph in which a node has links to rules, one at each position. -/
structure HasTree (g : PolicyGraph) (k : String) (o : Option Operator) (ids : List String) :
    Prop where
  links : ∀ e ∈ g.edges, e.source = .str k → e.relation = .dependsOn → ∃ c, IsLink k o e c
  mem : ∀ c, c ∈ ids.zipIdx ↔ ∃ e ∈ g.edges, IsLink k o e c

variable {cfg : Settings} {g : PolicyGraph} {p : Plan}

/-- Where the dependencies of a node are drawn by links to rules, the node has these rules. -/
theorem IsDrawnFrom.hasTree (h : g.IsDrawnFrom cfg p) (rs : List Rule)
    (hdrafts : ∀ d : Draft, d.relation = .dependsOn → d.source = k → (d ∈ p.drafts ↔
      ∃ c ∈ rs.zipIdx, d = ⟨k, Node.conditionKey c.1.id, .dependsOn, linkLabel o c.2⟩)) :
    g.HasTree k o (rs.map Rule.id) := by
  have hzip : ∀ c : String × Nat, c ∈ (rs.map Rule.id).zipIdx ↔
      ∃ x ∈ rs.zipIdx, c = (x.1.id, x.2) := by
    intro c
    rw [List.zipIdx_map]
    simp [Prod.map, eq_comm]
  refine ⟨?_, fun c => ?_⟩
  · intro e he hs hr
    obtain ⟨n, d, hd, rfl⟩ := h.mem_edges.mp he
    have hs : d.source = k := by simpa [Draft.toEdge] using hs
    obtain ⟨x, -, rfl⟩ := (hdrafts d hr hs).mp (Plan.mem_drawn.mp (List.mem_of_getElem? hd))
    exact ⟨(x.1.id, x.2), isLink_toEdge (x.1.id, x.2) n⟩
  · rw [hzip]
    constructor
    · rintro ⟨x, hx, rfl⟩
      obtain ⟨n, he⟩ := h.exists_edge ((hdrafts _ rfl rfl).mpr ⟨x, hx, rfl⟩)
      exact ⟨_, he, isLink_toEdge (x.1.id, x.2) n⟩
    · rintro ⟨e, he, hlink⟩
      obtain ⟨n, d, hd, rfl⟩ := h.mem_edges.mp he
      have hs : d.source = k := by simpa [Draft.toEdge] using hlink.source
      have hr : d.relation = .dependsOn := hlink.relation
      obtain ⟨x, hx, rfl⟩ := (hdrafts d hr hs).mp (Plan.mem_drawn.mp (List.mem_of_getElem? hd))
      exact ⟨x, hx, hlink.unique (isLink_toEdge (x.1.id, x.2) n)⟩

theorem IsDrawnFrom.hasTree_policy (h : g.IsDrawnFrom cfg p) {d : Document}
    (hd : d ∈ p.documents) :
    g.HasTree (Node.policyKey d.policy) none ((p.rootsOf d.policy).map Rule.id) := by
  refine h.hasTree (p.rootsOf d.policy) fun x hr hs => ?_
  rw [Plan.mem_drafts_dependsOn hr]
  constructor
  · rintro (⟨e, he, hx⟩ | ⟨q, -, hx⟩)
    · obtain ⟨c, hc, rfl⟩ := List.mem_map.mp hx
      obtain rfl : e = d := Plan.document_eq h.sound he hd (by simpa using hs)
      exact ⟨c, hc, rfl⟩
    · obtain ⟨c, -, rfl⟩ := List.mem_map.mp hx
      simp at hs
  · rintro ⟨c, hc, rfl⟩
    exact .inl ⟨d, hd, List.mem_map.mpr ⟨c, hc, rfl⟩⟩

theorem IsDrawnFrom.hasTree_condition (h : g.IsDrawnFrom cfg p) {q : String × Rule}
    (hq : q ∈ p.placed) :
    g.HasTree (Node.conditionKey q.2.id) (some q.2.operator) (q.2.children.map Rule.id) := by
  refine h.hasTree q.2.children fun x hr hs => ?_
  rw [Plan.mem_drafts_dependsOn hr]
  constructor
  · rintro (⟨e, -, hx⟩ | ⟨y, hy, hx⟩)
    · obtain ⟨c, -, rfl⟩ := List.mem_map.mp hx
      simp at hs
    · obtain ⟨c, hc, rfl⟩ := List.mem_map.mp hx
      obtain rfl : y = q := Plan.eq_of_placed h.sound hy hq (by simpa using hs)
      exact ⟨c, hc, rfl⟩
  · rintro ⟨c, hc, rfl⟩
    exact .inr ⟨q, hq, List.mem_map.mpr ⟨c, hc, rfl⟩⟩

/-- What is neither a declared policy nor a rule has no rules below it. -/
theorem IsDrawnFrom.hasTree_nil (h : g.IsDrawnFrom cfg p) (o : Option Operator)
    (hpolicy : ∀ d ∈ p.documents, k ≠ Node.policyKey d.policy)
    (hrule : ∀ q ∈ p.placed, k ≠ Node.conditionKey q.2.id) : g.HasTree k o [] := by
  refine h.hasTree [] fun x hr hs => ?_
  rw [Plan.mem_drafts_dependsOn hr]
  constructor
  · rintro (⟨d, hd, hx⟩ | ⟨q, hq, hx⟩)
    · obtain ⟨c, -, rfl⟩ := List.mem_map.mp hx
      exact absurd hs.symm (hpolicy d hd)
    · obtain ⟨c, -, rfl⟩ := List.mem_map.mp hx
      exact absurd hs.symm (hrule q hq)
  · rintro ⟨c, hc, -⟩
    simp at hc

end PolicyGraph

end Links

section Ties

variable {k : String} {o : Option Operator} {gs : List PolicyGraph}

/-- The links of a node in a composed graph are those in any of the graphs, each once. -/
theorem exists_links {es : List Edge} (hes : PolicyGraph.composeEdges gs = .ok es)
    (hlinks : ∀ g ∈ gs, ∀ e ∈ g.edges, e.source = .str k → e.relation = .dependsOn →
      ∃ c, IsLink k o e c) :
    ∃ Z : List (String × Nat), Z.Nodup ∧ (∀ c, c ∈ Z ↔ ∃ g ∈ gs, ∃ e ∈ g.edges, IsLink k o e c) ∧
      List.Forall₂ (fun c e => IsLink k o e c) Z
        (es.filter fun e => decide (e.relation = .dependsOn) && e.source.alike (.str k)) := by
  obtain ⟨ts, hts, rfl⟩ := Attempt.map_eq_ok.mp hes
  obtain ⟨hedges, htexts⟩ := tiesOf_eq_ok hts
  obtain ⟨kept, hkept, hnew, hpair, hcover⟩ := exists_firstTies [] ts
  set Q : Edge → Bool :=
    fun e => decide (e.relation = .dependsOn) && e.source.alike (.str k) with hQ
  have hedge : ∀ t ∈ ts, ∃ g ∈ gs, t.edge ∈ g.edges := by
    intro t ht
    have : t.edge ∈ gs.flatMap PolicyGraph.edges := hedges ▸ List.mem_map_of_mem ht
    simpa using List.mem_flatMap.mp this
  have hQlink : ∀ e, Q e = true ↔ e.relation = .dependsOn ∧ e.source = .str k := by
    intro e
    simp [hQ, Json.alike_str_right]
  have hlinked : ∀ t ∈ kept.filter fun t => Q t.edge,
      ∃ c, PolicyGraph.tieText t.edge = .ok t.text ∧ IsLink k o t.edge c := by
    intro t ht
    obtain ⟨ht, hq⟩ := List.mem_filter.mp ht
    obtain ⟨g, hg, he⟩ := hedge t (hnew t ht).1
    obtain ⟨hr, hs⟩ := (hQlink t.edge).mp hq
    obtain ⟨c, hc⟩ := hlinks g hg t.edge he hs hr
    exact ⟨c, htexts t (hnew t ht).1, hc⟩
  obtain ⟨Z, hZ⟩ := Attempt.exists_forall₂ hlinked
  refine ⟨Z, ?_, fun c => ⟨fun hc => ?_, ?_⟩, ?_⟩
  · -- ties to one rule at one position agree
    refine Attempt.pairwise_right hZ (hpair.filter _) ?_
    rintro t u c d ⟨ht, htc⟩ ⟨hu, hud⟩ hagree rfl
    rw [(hud.agrees_iff htc hu ht).mpr rfl] at hagree
    cases hagree
  · obtain ⟨t, ht, -, hlink⟩ := Attempt.exists_left hZ hc
    obtain ⟨g, hg, he⟩ := hedge t (hnew t (List.mem_of_mem_filter ht)).1
    exact ⟨g, hg, t.edge, he, hlink⟩
  · rintro ⟨g, hg, e, he, hlink⟩
    obtain ⟨t, ht, rfl⟩ : ∃ t ∈ ts, t.edge = e := by
      refine List.mem_map.mp ?_
      rw [hedges]
      exact List.mem_flatMap.mpr ⟨g, hg, he⟩
    rcases hcover t ht with hnone | ⟨u, hu, hut⟩
    · simp at hnone
    have hulink : IsLink k o u.edge c := by
      rcases hut with rfl | hagree
      · exact hlink
      obtain ⟨hsource, hrelation⟩ : u.edge.source = .str k ∧ u.edge.relation = .dependsOn := by
        rw [PolicyGraph.Tie.agrees, hlink.source, hlink.relation] at hagree
        simp only [Bool.and_eq_true, decide_eq_true_eq, Json.alike_str_left] at hagree
        exact ⟨hagree.1.1.1, hagree.1.2.symm⟩
      obtain ⟨g', hg', he'⟩ := hedge u (hnew u hu).1
      obtain ⟨d, hd⟩ := hlinks g' hg' u.edge he' hsource hrelation
      rwa [(hlink.agrees_iff hd (htexts t ht) (htexts u (hnew u hu).1)).mp hagree]
    have huK : u ∈ kept.filter fun t => Q t.edge :=
      List.mem_filter.mpr ⟨hu, (hQlink _).mpr ⟨hulink.relation, hulink.source⟩⟩
    obtain ⟨d, hd, -, hud⟩ := Attempt.exists_right hZ huK
    rwa [hulink.unique hud]
  · have hfilter := filter_renumber (Q := Q) (fun _ _ => rfl) 0 (kept.map PolicyGraph.Tie.edge)
    rw [List.filter_map, List.forall₂_map_left_iff, ← hkept] at hfilter
    refine Attempt.forall₂_join hZ hfilter ?_
    rintro t c e ⟨-, hlink⟩ ⟨m, rfl⟩
    exact ⟨hlink.source, hlink.target, hlink.relation, hlink.properties⟩

end Ties

section Prefixes

variable {α : Type}

theorem zipIdx_nodup (xs : List α) : xs.zipIdx.Nodup := by
  refine List.Nodup.of_map Prod.snd ?_
  rw [List.zipIdx_map_snd]
  exact List.nodup_range' 1

theorem isPrefix_iff_zipIdx_subset {xs ys : List α} :
    xs <+: ys ↔ ∀ c ∈ xs.zipIdx, c ∈ ys.zipIdx := by
  rw [List.prefix_iff_getElem?]
  constructor
  · rintro h ⟨x, i⟩ hx
    rw [List.mem_zipIdx_iff_getElem?] at hx ⊢
    obtain ⟨hi, hxi⟩ := List.getElem?_eq_some_iff.mp hx
    exact (h i hi).trans (congrArg some hxi)
  · intro h i hi
    have := h (xs[i], i) (by simp [List.mem_zipIdx_iff_getElem?])
    simpa [List.mem_zipIdx_iff_getElem?] using this

/-- Of lists read together, one gives everything exactly where the others begin it. -/
theorem perm_zipIdx_iff {ι : Type} {is : List ι} {f : ι → List α} {Z : List (α × Nat)}
    (hZ : Z.Nodup) (hmem : ∀ c, c ∈ Z ↔ ∃ i ∈ is, c ∈ (f i).zipIdx) {i : ι} (hi : i ∈ is) :
    Z.Perm (f i).zipIdx ↔ ∀ j ∈ is, f j <+: f i := by
  constructor
  · intro hperm j hj
    refine isPrefix_iff_zipIdx_subset.mpr fun c hc => ?_
    exact hperm.mem_iff.mp ((hmem c).mpr ⟨j, hj, hc⟩)
  · intro h
    refine (List.perm_ext_iff_of_nodup hZ (zipIdx_nodup _)).mpr fun c => ?_
    rw [hmem]
    constructor
    · rintro ⟨j, hj, hc⟩
      exact isPrefix_iff_zipIdx_subset.mp (h j hj) c hc
    · exact fun hc => ⟨i, hi, hc⟩

end Prefixes

section Children

namespace PolicyGraph

/-- The rules below a node, in their order, each with whether it counts negated. -/
def childrenOf (g : PolicyGraph) (n : Name) : Except Fault (List (Name × Bool)) :=
  (g.ruleChildren n).map fun bs => bs.map fun b => (b.node.id, b.edge.isNegated)

/-- A rule below a policy, or below a rule with an operator. -/
def childOf (o : Option Operator) (id : String) : Name × Bool :=
  (.str (Node.conditionKey id), decide (o = some .not))

theorem childOf_injective (o : Option Operator) : Function.Injective (childOf o) := by
  intro a b h
  simpa [childOf] using h

/-- A graph in which the tree of a node, if it is there, is read off its links. -/
structure HasChildren (g : PolicyGraph) (k : String) (o : Option Operator) (ids : List String) :
    Prop extends g.HasTree k o ids where
  children : g.hasNode (.str k) = true → g.childrenOf (.str k) = .ok (ids.map (childOf o))
  missing : g.hasNode (.str k) = false → ids = []
  condition : ∀ id ∈ ids, ∃ n ∈ g.nodes, n.id = .str (Node.conditionKey id) ∧
    n.kind = .condition ∧ n.isExternal = false

variable {cfg : Settings} {g : PolicyGraph} {p : Plan} {k : String} {o : Option Operator}

theorem childrenOf_eq_ok {rs : List Rule} {bs : List Branch} (h : g.ruleChildren (.str k) = .ok bs)
    (hall : List.Forall₂ (fun r b => childOf o r.id = (b.node.id, b.edge.isNegated)) rs bs) :
    g.childrenOf (.str k) = .ok ((rs.map Rule.id).map (childOf o)) := by
  rw [childrenOf, h, Attempt.map_ok, List.map_map]
  refine congrArg Except.ok (Eq.symm ?_)
  refine List.forall₂_eq_eq_eq ▸ ?_
  rw [List.forall₂_map_left_iff, List.forall₂_map_right_iff]
  exact hall

/-- A node without links has no children. -/
theorem HasTree.children_nil (h : g.HasTree k o []) (hk : g.hasNode (.str k) = true) :
    g.childrenOf (.str k) = .ok [] := by
  have hnone : (g.edges.filter fun e =>
      decide (e.relation = .dependsOn) && e.source.alike (.str k)) = [] := by
    refine List.filter_eq_nil_iff.mpr fun e he hlink => ?_
    simp only [Bool.and_eq_true, decide_eq_true_eq, Json.alike_str_right] at hlink
    obtain ⟨c, hc⟩ := h.links e he hlink.2 hlink.1
    simpa using (h.mem c).mpr ⟨e, he, hc⟩
  rw [childrenOf, ruleChildren, outEdges_eq hk, hnone, Attempt.ok_bind]
  simp [arrange, placed]

theorem HasTree.hasChildren_nil (h : g.HasTree k o []) : g.HasChildren k o [] :=
  { h with children := h.children_nil, missing := fun _ => rfl, condition := by simp }

theorem conditionNode_isExternal (policy : String) (h : Head) :
    (Plan.conditionNode cfg policy h).isExternal = false := by
  simp [Node.isExternal, Node.get, Node.property?, Plan.conditionNode, Entries.get?_ofFields,
    List.lookup_cons, Json.truthy]

theorem IsDrawnFrom.exists_condition (h : g.IsDrawnFrom cfg p) {q : String × Rule}
    (hq : q ∈ p.placed) : ∃ n ∈ g.nodes, n.id = .str (Node.conditionKey q.2.id) ∧
      n.kind = .condition ∧ n.isExternal = false :=
  ⟨_, (node?_spec (h.node?_condition hq)).1, rfl, rfl, conditionNode_isExternal q.1 q.2.head⟩

theorem IsDrawnFrom.childrenOf_condition (h : g.IsDrawnFrom cfg p) {q : String × Rule}
    (hq : q ∈ p.placed) : g.childrenOf (.str (Node.conditionKey q.2.id)) =
      .ok ((q.2.children.map Rule.id).map (childOf (some q.2.operator))) := by
  obtain ⟨bs, hbs, hall⟩ := h.ruleChildren_condition hq
  refine childrenOf_eq_ok hbs (hall.imp fun r b hb => ?_)
  rw [hb.1, hb.2, childOf]
  simp [Plan.conditionNode, Rule.id]

theorem IsDrawnFrom.childrenOf_policy (h : g.IsDrawnFrom cfg p) {d : Document}
    (hd : d ∈ p.documents) : g.childrenOf (.str (Node.policyKey d.policy)) =
      .ok (((p.rootsOf d.policy).map Rule.id).map (childOf none)) := by
  obtain ⟨bs, hbs, hall⟩ := h.policyRoots_policy hd
  rw [policyRoots, Node.policyId_str] at hbs
  refine childrenOf_eq_ok hbs (hall.imp fun r b hb => ?_)
  rw [hb.1, hb.2]
  rfl

/-- The children of a declared policy are its top-level rules. -/
theorem IsDrawnFrom.hasChildren_document (h : g.IsDrawnFrom cfg p) {d : Document}
    (hd : d ∈ p.documents) :
    g.HasChildren (Node.policyKey d.policy) none ((p.rootsOf d.policy).map Rule.id) := by
  refine { h.hasTree_policy hd with children := ?_, missing := ?_, condition := ?_ }
  · exact fun _ => h.childrenOf_policy hd
  · intro hnone
    rw [hasNode_of_node? (h.node?_policy hd)] at hnone
    cases hnone
  · intro id hid
    obtain ⟨r, hr, rfl⟩ := List.mem_map.mp hid
    exact h.exists_condition (Plan.placed_root hd hr)

/-- The children of a rule are those it has in its tree. -/
theorem IsDrawnFrom.hasChildren_rule (h : g.IsDrawnFrom cfg p) {q : String × Rule}
    (hq : q ∈ p.placed) : g.HasChildren (Node.conditionKey q.2.id) (some q.2.operator)
      (q.2.children.map Rule.id) := by
  refine { h.hasTree_condition hq with children := ?_, missing := ?_, condition := ?_ }
  · exact fun _ => h.childrenOf_condition hq
  · intro hnone
    rw [hasNode_of_node? (h.node?_condition hq)] at hnone
    cases hnone
  · intro i hi
    obtain ⟨r, hr, rfl⟩ := List.mem_map.mp hi
    exact h.exists_condition (Plan.placed_child hq hr)

/-- A policy that no document declares has no children. -/
theorem IsDrawnFrom.hasChildren_undeclared (h : g.IsDrawnFrom cfg p) {t : String}
    (ht : t ∉ p.documents.map Document.policy) : g.HasChildren (Node.policyKey t) none [] := by
  refine (h.hasTree_nil none ?_ (by simp)).hasChildren_nil
  rintro d hd he
  exact ht (List.mem_map.mpr ⟨d, hd, (Node.policyKey_inj.mp he).symm⟩)

/-- A rule that a plan does not place has no children. -/
theorem IsDrawnFrom.hasChildren_unplaced (h : g.IsDrawnFrom cfg p) {id : String}
    (hid : ¬ ∃ q ∈ p.placed, q.2.id = id) (o : Option Operator) :
    g.HasChildren (Node.conditionKey id) o [] := by
  refine (h.hasTree_nil o (by simp) ?_).hasChildren_nil
  rintro q hq he
  exact hid ⟨q, hq, (Node.conditionKey_inj.mp he).symm⟩

/-- The children of a policy, which has some only where it is declared. -/
theorem IsDrawnFrom.hasChildren_policy (h : g.IsDrawnFrom cfg p) (t : String) :
    ∃ ids, g.HasChildren (Node.policyKey t) none ids := by
  by_cases ht : t ∈ p.documents.map Document.policy
  · obtain ⟨d, hd, rfl⟩ := List.mem_map.mp ht
    exact ⟨_, h.hasChildren_document hd⟩
  · exact ⟨[], h.hasChildren_undeclared ht⟩

/-- The children of a rule, where the graph has it only with one operator. -/
theorem IsDrawnFrom.hasChildren_condition (h : g.IsDrawnFrom cfg p) (id : String) (x : Operator)
    (hx : ∀ q ∈ p.placed, q.2.id = id → q.2.operator = x) :
    ∃ ids, g.HasChildren (Node.conditionKey id) (some x) ids := by
  by_cases hid : ∃ q ∈ p.placed, q.2.id = id
  · obtain ⟨q, hq, rfl⟩ := hid
    obtain rfl := hx q hq rfl
    exact ⟨_, h.hasChildren_rule hq⟩
  · exact ⟨[], h.hasChildren_unplaced hid (some x)⟩

end PolicyGraph

end Children

section Composed

theorem Node.alike_kind {m n : Node} (h : m.alike n = true) : m.kind = n.kind := by
  simp only [Node.alike, Bool.and_eq_true, decide_eq_true_eq] at h
  exact h.1.1.2

/-- Conditions that agree have the same operator. -/
theorem operator_eq_of_alike {cfg cfg' : Settings} {policy policy' : String} {h h' : Head}
    (ha : (Plan.conditionNode cfg policy h).alike (Plan.conditionNode cfg' policy' h') = true) :
    h.operator = h'.operator := by
  have hname : h.operator.name = h'.operator.name := by
    simp only [Node.alike, Bool.and_eq_true] at ha
    obtain ⟨⟨-, hentries⟩, -⟩ := ha
    rw [Entries.alike, Bool.and_eq_true] at hentries
    have := List.all_eq_true.mp hentries.2 (.str "operator", .str h.operator.name)
      (by simp [Plan.conditionNode, Entries.mapValues, Entries.ofFields, Property.toJson])
    simpa [Plan.conditionNode, Entries.mapValues, Entries.ofFields, Property.toJson,
      Entries.valueOf?] using this
  have := congrArg Operator.ofName? hname
  simpa [Operator.ofName?_name] using this

namespace PolicyGraph

variable {gs : List PolicyGraph} {c : PolicyGraph} {k : String} {o : Option Operator}

/-- Nodes and edges that were composed of those of graphs. -/
structure IsComposedOf (c : PolicyGraph) (gs : List PolicyGraph) : Prop where
  absorbs : Absorbs [] (gs.flatMap PolicyGraph.nodes) c.nodes
  edges : composeEdges gs = .ok c.edges

theorem IsComposedOf.node?_eq (h : c.IsComposedOf gs) {m : Node} (hm : m ∈ c.nodes)
    (hk : m.id = .str k) : c.node? (.str k) = some m := by
  have hnodup := h.absorbs.nodup (by simp)
  refine node?_eq_some hm hk fun x hx hxk => ?_
  exact List.inj_on_of_nodup_map hnodup hx hm (hxk.trans hk.symm)

/-- A node of a graph has one that stands for it in the composed graph. -/
theorem IsComposedOf.exists_stands (h : c.IsComposedOf gs) {g : PolicyGraph} (hg : g ∈ gs)
    {n : Node} (hn : n ∈ g.nodes) (hk : n.id = .str k) :
    ∃ m, c.node? (.str k) = some m ∧ m.Stands n := by
  obtain ⟨m, hm, hstands⟩ := h.absorbs.stands n (List.mem_flatMap.mpr ⟨g, hg, hn⟩)
  exact ⟨m, h.node?_eq hm (hstands.id.trans hk), hstands⟩

theorem exists_arrange_length {α : Type} {R : α × Nat → Branch → Prop}
    (hR : ∀ c b, R c b → b.edge.position = .ok (c.2 : Int)) {Z : List (α × Nat)}
    {bs : List Branch} (hb : List.Forall₂ R Z bs) :
    ∃ cs, arrange bs = .ok cs ∧ cs.length = Z.length := by
  obtain ⟨ps, hps, hall⟩ := exists_placed hR hb
  exact ⟨_, by rw [arrange, hps, Attempt.map_ok], by simp [hall.length_eq]⟩

/-- The children of a node in a composed graph, given the positions they have in the graphs. -/
theorem IsComposedOf.exists_children (h : c.IsComposedOf gs) {ids : PolicyGraph → List String}
    (htree : ∀ g ∈ gs, g.HasChildren k o (ids g)) (hk : c.hasNode (.str k) = true) :
    ∃ Z : List (String × Nat), Z.Nodup ∧ (∀ x, x ∈ Z ↔ ∃ g ∈ gs, x ∈ (ids g).zipIdx) ∧
      ∃ ys, c.childrenOf (.str k) = .ok ys ∧ ys.length = Z.length ∧
        ∀ xs : List String, Z.Perm xs.zipIdx → ys = xs.map (childOf o) := by
  obtain ⟨Z, hZ, hmem, hlinks⟩ := exists_links h.edges fun g hg => (htree g hg).links
  have hmem : ∀ x, x ∈ Z ↔ ∃ g ∈ gs, x ∈ (ids g).zipIdx := by
    intro x
    rw [hmem]
    constructor
    · rintro ⟨g, hg, hx⟩
      exact ⟨g, hg, ((htree g hg).mem x).mpr hx⟩
    · rintro ⟨g, hg, hx⟩
      exact ⟨g, hg, ((htree g hg).mem x).mp hx⟩
  -- every link leads to a condition
  have hbranches := forall₂_filterMap
    (S := fun x b => b.node.id = .str (Node.conditionKey x.1) ∧ IsLink k o b.edge x)
    (f := fun e => (c.targetOf? .condition e).map fun m => Branch.mk m e) hlinks (by
      intro x hx e hlink
      obtain ⟨g, hg, hxg⟩ := (hmem x).mp hx
      have hid : x.1 ∈ ids g := by
        obtain ⟨a, i⟩ := x
        exact List.fst_mem_of_mem_zipIdx hxg
      obtain ⟨n, hn, hnk, hkind, hexternal⟩ := (htree g hg).condition x.1 hid
      obtain ⟨m, hm, hstands⟩ := h.exists_stands hg hn hnk
      have hmkind : m.kind = .condition := by
        rcases (hstands.agrees hexternal).2 with rfl | ha
        · exact hkind
        · rw [Node.alike_kind ha, hkind]
      have htarget := targetOf?_eq_some (e := e) (hlink.target ▸ hm) hmkind
      exact ⟨⟨m, e⟩, by rw [htarget, Option.map_some], (node?_spec hm).2, hlink⟩)
  have hposition : ∀ (x : String × Nat) (b : Branch),
      b.node.id = .str (Node.conditionKey x.1) ∧ IsLink k o b.edge x →
        b.edge.position = .ok (x.2 : Int) := fun x b hb => hb.2.position
  obtain ⟨bs, hbs, hlength⟩ := exists_arrange_length hposition hbranches
  have hchildren : c.childrenOf (.str k) =
      .ok (bs.map fun b => (b.node.id, b.edge.isNegated)) := by
    rw [childrenOf, ruleChildren, outEdges_eq hk, Attempt.ok_bind, hbs, Attempt.map_ok]
  refine ⟨Z, hZ, hmem, _, hchildren, by rw [List.length_map, hlength], fun xs hxs => ?_⟩
  obtain ⟨cs, hcs, hall⟩ := exists_arrange hposition hxs hbranches
  obtain rfl : bs = cs := Except.ok.inj (hbs.symm.trans hcs)
  rw [← List.zipIdx_map_fst 0 xs, List.map_map]
  refine Eq.symm (List.forall₂_eq_eq_eq ▸ ?_)
  rw [List.forall₂_map_left_iff, List.forall₂_map_right_iff]
  refine hall.imp fun x b hb => ?_
  rw [hb.1, hb.2.isNegated]
  rfl

/-- A composed graph keeps the children of a node exactly where those that the other graphs give it
begin them. -/
theorem IsComposedOf.keeps_iff (h : c.IsComposedOf gs) {ids : PolicyGraph → List String}
    (htree : ∀ g ∈ gs, g.HasChildren k o (ids g)) (hk : c.hasNode (.str k) = true)
    {g : PolicyGraph} (hg : g ∈ gs) (hgk : g.hasNode (.str k) = true) :
    ∃ xs ys, g.childrenOf (.str k) = .ok xs ∧ c.childrenOf (.str k) = .ok ys ∧
      (ys = xs ↔ ∀ g' ∈ gs, ∀ zs, g'.childrenOf (.str k) = .ok zs → zs <+: xs) := by
  obtain ⟨Z, hZ, hmem, ys, hys, hlength, hperm⟩ := h.exists_children htree hk
  refine ⟨_, ys, (htree g hg).children hgk, hys, ?_⟩
  have hkeeps : ys = (ids g).map (childOf o) ↔ Z.Perm (ids g).zipIdx := by
    refine ⟨fun he => ?_, hperm (ids g)⟩
    have hsub : (ids g).zipIdx ⊆ Z := fun x hx => (hmem x).mpr ⟨g, hg, hx⟩
    refine ((List.subperm_of_subset (zipIdx_nodup _) hsub).perm_of_length_le ?_).symm
    rw [← hlength, he]
    simp
  rw [hkeeps, perm_zipIdx_iff hZ hmem hg]
  have hbegins : ∀ g', (ids g').map (childOf o) <+: (ids g).map (childOf o) ↔ ids g' <+: ids g := by
    refine fun g' => ⟨fun hmap => ?_, fun hids => hids.map _⟩
    obtain ⟨l, hl, he⟩ := List.prefix_map_iff.mp hmap
    rwa [List.map_injective_iff.mpr (childOf_injective o) he]
  constructor
  · intro hall g' hg' zs hzs
    have hnode : g'.hasNode (.str k) = true := by
      by_contra hnone
      rw [childrenOf, ruleChildren, outEdges, node] at hzs
      rw [hasNode, Bool.not_eq_true, Option.isSome_eq_false_iff, Option.isNone_iff_eq_none] at hnone
      rw [hnone] at hzs
      cases hzs
    obtain rfl := Except.ok.inj (((htree g' hg').children hnode).symm.trans hzs)
    exact (hbegins g').mpr (hall g' hg')
  · intro hall g' hg'
    by_cases hnode : g'.hasNode (.str k) = true
    · exact (hbegins g').mp (hall g' hg' _ ((htree g' hg').children hnode))
    · rw [(htree g' hg').missing (by simpa using hnode)]
      exact List.nil_prefix

/-- Composed or left alone, a graph has its children under this condition. -/
theorem isComposedOf_of_compose (hgs : ∀ g ∈ gs, ∃ cfg, g.IsCompiled cfg)
    (h : compose gs = .ok c) : gs = [c] ∨ c.IsComposedOf gs := by
  rcases compose_eq_ok h with hone | ⟨ns, es, hns, hes, rfl, rfl⟩
  · exact .inl hone
  refine .inr ⟨absorbs_of_composeNodes (fun g hg => ?_) hns, hes⟩
  obtain ⟨cfg, hcfg⟩ := hgs g hg
  exact hcfg.isTextual.ids

/-- Rules that graphs share have one operator if the graphs can be composed. -/
theorem IsComposedOf.operator_eq (h : c.IsComposedOf gs)
    (hgs : ∀ g ∈ gs, ∃ cfg p, g.IsDrawnFrom cfg p) {cfg cfg' : Settings} {p p' : Plan}
    {g g' : PolicyGraph} (hg : g ∈ gs) (hg' : g' ∈ gs) (hp : g.IsDrawnFrom cfg p)
    (hp' : g'.IsDrawnFrom cfg' p') {q q' : String × Rule} (hq : q ∈ p.placed)
    (hq' : q' ∈ p'.placed) (hid : q'.2.id = q.2.id) : q'.2.operator = q.2.operator := by
  obtain ⟨hn, hnk⟩ := node?_spec (hp.node?_condition hq)
  obtain ⟨hn', hnk'⟩ := node?_spec (hp'.node?_condition hq')
  rw [hid] at hnk'
  obtain ⟨m, hm, hstands⟩ := h.exists_stands hg hn hnk
  obtain ⟨m', hm', hstands'⟩ := h.exists_stands hg' hn' hnk'
  obtain rfl : m = m' := Option.some.inj (hm.symm.trans hm')
  have ha := (hstands.agrees (conditionNode_isExternal q.1 q.2.head)).2
  have ha' := (hstands'.agrees (conditionNode_isExternal q'.1 q'.2.head)).2
  have hkind : m.kind = .condition := by
    rcases ha with rfl | ha
    · rfl
    · rw [Node.alike_kind ha]
      rfl
  -- the node that stands for both is itself that of a rule
  obtain ⟨x, hx, hmx⟩ : ∃ x ∈ gs, m ∈ x.nodes := by
    rcases h.absorbs.origin m (node?_spec hm).1 with hmem | hmem
    · simp at hmem
    · exact List.mem_flatMap.mp hmem
  obtain ⟨cfgx, px, hpx⟩ := hgs x hx
  obtain ⟨r, -, rfl⟩ := hpx.eq_of_condition hmx hkind
  have hagree : ∀ {cfg : Settings} {y : String × Rule},
      Plan.conditionNode cfgx r.1 r.2.head = Plan.conditionNode cfg y.1 y.2.head ∨
        (Plan.conditionNode cfgx r.1 r.2.head).alike (Plan.conditionNode cfg y.1 y.2.head) = true →
      r.2.operator = y.2.operator := by
    rintro cfg y (he | he)
    · have := congrArg Node.operator? he
      rw [Plan.conditionNode_operator?, Plan.conditionNode_operator?] at this
      simpa [Rule.operator] using this
    · exact operator_eq_of_alike he
  exact (hagree ha').symm.trans (hagree ha)

theorem IsDrawnFrom.exists_childrenOf {cfg : Settings} {p : Plan} {g : PolicyGraph} {n : Node}
    (h : g.IsDrawnFrom cfg p) (hn : n ∈ g.nodes)
    (hkind : n.kind = .condition ∨ n.kind = .policy ∧ n.isExternal = false) :
    ∃ xs, g.childrenOf n.id = .ok xs := by
  rcases hkind with hcondition | ⟨hpolicy, hexternal⟩
  · obtain ⟨q, hq, rfl⟩ := h.eq_of_condition hn hcondition
    exact ⟨_, h.childrenOf_condition hq⟩
  · rcases h.eq_of_policy hn hpolicy with ⟨d, hd, rfl⟩ | ⟨d, -, t, -, rfl⟩
    · exact ⟨_, h.childrenOf_policy hd⟩
    · rw [Plan.externalNode_isExternal] at hexternal
      cases hexternal

/-- Where graphs can be composed, a declared policy or a rule of one of them keeps its children
exactly if the children that any graph has of it begin them. -/
theorem children_compose_iff {g : PolicyGraph} {n : Node}
    (hgs : ∀ g ∈ gs, ∃ cfg, g.IsCompiled cfg) (hc : compose gs = .ok c) (hg : g ∈ gs)
    (hn : n ∈ g.nodes) (hkind : n.kind = .condition ∨ n.kind = .policy ∧ n.isExternal = false) :
    ∃ xs ys, g.childrenOf n.id = .ok xs ∧ c.childrenOf n.id = .ok ys ∧
      (ys = xs ↔ ∀ g' ∈ gs, ∀ zs, g'.childrenOf n.id = .ok zs → zs <+: xs) := by
  have hdrawn : ∀ g ∈ gs, ∃ cfg p, g.IsDrawnFrom cfg p := by
    intro g hg
    obtain ⟨cfg, hcfg⟩ := hgs g hg
    exact ⟨cfg, hcfg.exists_isDrawnFrom⟩
  obtain ⟨cfg, p, hp⟩ := hdrawn g hg
  rcases isComposedOf_of_compose hgs hc with rfl | h
  · obtain rfl := List.mem_singleton.mp hg
    obtain ⟨xs, hxs⟩ := hp.exists_childrenOf hn hkind
    refine ⟨xs, xs, hxs, hxs, fun _ g' hg' zs hzs => ?_, fun _ => rfl⟩
    obtain rfl := List.mem_singleton.mp hg'
    obtain rfl : zs = xs := Except.ok.inj (hzs.symm.trans hxs)
    exact List.prefix_rfl
  rcases hkind with hcondition | ⟨hpolicy, hexternal⟩
  · obtain ⟨q, hq, rfl⟩ := hp.eq_of_condition hn hcondition
    have htree : ∀ g' ∈ gs, ∃ ids,
        g'.HasChildren (Node.conditionKey q.2.id) (some q.2.operator) ids := by
      intro g' hg'
      obtain ⟨cfg', p', hp'⟩ := hdrawn g' hg'
      exact hp'.hasChildren_condition q.2.id q.2.operator fun q' hq' hid =>
        h.operator_eq hdrawn hg hg' hp hp' hq hq' hid
    choose! ids hids using htree
    obtain ⟨m, hm, -⟩ := h.exists_stands hg hn rfl
    exact h.keeps_iff hids (hasNode_of_node? hm) hg (hasNode_of_node? (hp.node?_condition hq))
  · rcases hp.eq_of_policy hn hpolicy with ⟨d, hd, rfl⟩ | ⟨d, -, t, -, rfl⟩
    · have htree : ∀ g' ∈ gs, ∃ ids, g'.HasChildren (Node.policyKey d.policy) none ids := by
        intro g' hg'
        obtain ⟨cfg', p', hp'⟩ := hdrawn g' hg'
        exact hp'.hasChildren_policy d.policy
      choose! ids hids using htree
      obtain ⟨m, hm, -⟩ := h.exists_stands hg hn rfl
      exact h.keeps_iff hids (hasNode_of_node? hm) hg (hasNode_of_node? (hp.node?_policy hd))
    · rw [Plan.externalNode_isExternal] at hexternal
      cases hexternal

end PolicyGraph

end Composed

section Forks

/-- A rule set with one rule, over one comparison. -/
def forked (id : String) : RuleSet where
  rules := [.node { id := "r", subject := "all", operator := .and, clause := "c",
                    confidence := some Number.one }
    [.node { id := id, subject := "status", operator := .eq, value := some (.text id),
             clause := "c", confidence := some Number.one } []]]
  documents := [{ policy := "p", clauses := [{ id := "c" }] }]

def forkedPlan (id : String) : Plan := ⟨(forked id).documents, (forked id).rules.map ("p", ·)⟩

namespace PolicyGraph

variable {g : PolicyGraph} {id : String}

theorem exists_forked (hid : id = "a" ∨ id = "b") : ∃ g : PolicyGraph,
    g.IsCompiled Settings.standard ∧ g.IsDrawnFrom Settings.standard (forkedPlan id) := by
  have hbuild : ∃ g, (forked id).validate Settings.standard = .ok (forked id) ∧
      ((forked id).build Settings.standard).outcome = .ok g ∧
      g.IsDrawnFrom Settings.standard (forkedPlan id) := by
    rcases hid with rfl | rfl <;> exact exists_build (by decide +kernel) rfl (by decide +kernel)
  obtain ⟨g, hvalid, hg, hdrawn⟩ := hbuild
  exact ⟨g, ⟨forked id, hvalid, hg⟩, hdrawn⟩

/-- The rule of a fork has one child. -/
theorem IsDrawnFrom.children_forked (h : g.IsDrawnFrom Settings.standard (forkedPlan id)) :
    ∃ n ∈ g.nodes, n.id = .str (Node.conditionKey "r") ∧ n.kind = .condition ∧
      g.childrenOf n.id = .ok [(.str (Node.conditionKey id), false)] := by
  obtain ⟨q, hq, hr, hchildren⟩ : ∃ q ∈ (forkedPlan id).placed, q.2.id = "r" ∧
      g.childrenOf (.str (Node.conditionKey q.2.id)) =
        .ok [(.str (Node.conditionKey id), false)] :=
    ⟨_, List.mem_cons_self, rfl, h.childrenOf_condition List.mem_cons_self⟩
  obtain ⟨n, hn, hk, hkind, -⟩ := h.exists_condition hq
  rw [hr] at hchildren hk
  exact ⟨n, hn, hk, hkind, by rw [hk, hchildren]⟩

/-- Forks of one rule can be composed. -/
theorem exists_crossed : ∃ g g' c : PolicyGraph,
    g.IsCompiled Settings.standard ∧ g'.IsCompiled Settings.standard ∧
      g.IsDrawnFrom Settings.standard (forkedPlan "a") ∧
      g'.IsDrawnFrom Settings.standard (forkedPlan "b") ∧ compose [g, g'] = .ok c := by
  obtain ⟨g, hg, hdrawn⟩ := exists_forked (.inl rfl)
  obtain ⟨g', hg', hdrawn'⟩ := exists_forked (.inr rfl)
  have hok : (composeNodes 0 [] [g, g']).isOk = true := by
    simp only [composeNodes, hdrawn.nodes, hdrawn'.nodes]
    decide +kernel
  have htextual : ∀ x ∈ [g, g'], x.IsTextual := by
    simpa using ⟨hg.isTextual, hg'.isTextual⟩
  obtain ⟨c, hc⟩ := exists_compose_of_isOk htextual hok
  exact ⟨g, g', c, hg, hg', hdrawn, hdrawn', hc⟩

/-- A rule that two graphs share can get the children of both. -/
theorem children_compose_ne : ∃ g g' c n, g.IsCompiled Settings.standard ∧
    g'.IsCompiled Settings.standard ∧ compose [g, g'] = .ok c ∧ n ∈ g.nodes ∧
      c.childrenOf n.id ≠ g.childrenOf n.id := by
  obtain ⟨g, g', c, hg, hg', hdrawn, hdrawn', hc⟩ := exists_crossed
  obtain ⟨n, hn, hk, hkind, hchildren⟩ := hdrawn.children_forked
  obtain ⟨n', -, hk', -, hchildren'⟩ := hdrawn'.children_forked
  have hgs : ∀ x ∈ [g, g'], ∃ cfg, x.IsCompiled cfg := by simpa using ⟨⟨_, hg⟩, _, hg'⟩
  obtain ⟨xs, ys, hxs, hys, hiff⟩ := children_compose_iff hgs hc (by simp) hn (.inl hkind)
  refine ⟨g, g', c, n, hg, hg', hc, hn, fun he => ?_⟩
  obtain rfl : xs = _ := Except.ok.inj (hxs.symm.trans hchildren)
  rw [hxs, hys] at he
  have := hiff.mp (Except.ok.inj he) g' (by simp) _ (by rw [hk, ← hk']; exact hchildren')
  simp at this

/-- Composition does not keep the children of every rule. -/
theorem not_forall_children_compose : ¬ ∀ (cfg : Settings) (gs : List PolicyGraph)
    (c g : PolicyGraph) (n : Node), (∀ x ∈ gs, x.IsCompiled cfg) → compose gs = .ok c → g ∈ gs →
      n ∈ g.nodes → (n.kind = .condition ∨ n.kind = .policy ∧ n.isExternal = false) →
        c.childrenOf n.id = g.childrenOf n.id := by
  intro h
  obtain ⟨g, g', c, hg, hg', hdrawn, hdrawn', hc⟩ := exists_crossed
  obtain ⟨n, hn, hk, hkind, hchildren⟩ := hdrawn.children_forked
  obtain ⟨n', hn', hk', hkind', hchildren'⟩ := hdrawn'.children_forked
  have hgs : ∀ x ∈ [g, g'], x.IsCompiled Settings.standard := by simpa using ⟨hg, hg'⟩
  have heq := h _ _ c g n hgs hc (by simp) hn (.inl hkind)
  have heq' := h _ _ c g' n' hgs hc (by simp) hn' (.inl hkind')
  rw [hk'] at heq' hchildren'
  rw [hk] at heq hchildren
  have := hchildren.symm.trans (heq.symm.trans (heq'.trans hchildren'))
  simp at this

end PolicyGraph

end Forks

end Eligibility
