import Eligibility.PolicyGraph.Composition
import Eligibility.Proofs.CompiledGraph
import Eligibility.Proofs.GraphConditions
/-!
# Composed graphs

**Nodes.**  Every node of the graphs has one that stands for it: itself, or one that
agrees with it.  Identifiers stay distinct.

**Edges.**  Of edges that agree the first one is kept, and all are numbered anew.

**Results.**
* `absorbs_of_composeNodes`: the nodes of a composed graph.
* `exists_firstTies`: the edges that are kept.
* `exists_compose`: composition fails only where two nodes disagree.
-/

namespace Eligibility

section Nodes

/-- A node that stands for another one in a composed graph. -/
structure Node.Stands (m n : Node) : Prop where
  id : m.id = n.id
  agrees : n.isExternal = false → m.isExternal = false ∧ (m = n ∨ m.alike n = true)

theorem Node.Stands.refl (n : Node) : n.Stands n := ⟨rfl, fun hn => ⟨hn, .inl rfl⟩⟩

namespace PolicyGraph

/-- Nodes collected so far after others were absorbed. -/
structure Absorbs (acc ns acc' : List Node) : Prop where
  origin : ∀ m ∈ acc', m ∈ acc ∨ m ∈ ns
  stands : ∀ n ∈ ns, ∃ m ∈ acc', m.Stands n
  keeps : ∀ x, (∃ m ∈ acc, m.Stands x) → ∃ m ∈ acc', m.Stands x
  nodup : (acc.map Node.id).Nodup → (acc'.map Node.id).Nodup

theorem Absorbs.refl (acc : List Node) : Absorbs acc [] acc :=
  ⟨fun _ hm => .inl hm, by simp, fun _ hx => hx, fun h => h⟩

theorem Absorbs.trans {a b c ns ms : List Node} (h : Absorbs a ns b) (h' : Absorbs b ms c) :
    Absorbs a (ns ++ ms) c := by
  refine ⟨fun m hm => ?_, fun n hn => ?_, fun x hx => h'.keeps x (h.keeps x hx), h'.nodup ∘ h.nodup⟩
  · rcases h'.origin m hm with hm | hm
    · rcases h.origin m hm with hm | hm <;> simp [hm]
    · simp [hm]
  · rcases List.mem_append.mp hn with hn | hn
    · exact h'.keeps n (h.stands n hn)
    · exact h'.stands n hn

/-- A node that is absorbed brings its identifier, unless that is there. -/
theorem ids_of_absorb {position : Nat} {n : Node} {k : String} (hk : n.id = .str k)
    {acc acc' : List Node} (h : absorb position n acc = .ok acc') :
    (n.id ∈ acc.map Node.id ∧ acc'.map Node.id = acc.map Node.id) ∨
      (n.id ∉ acc.map Node.id ∧ acc'.map Node.id = acc.map Node.id ++ [n.id]) := by
  induction acc generalizing acc' with
  | nil => cases h; simp
  | cons m r ih =>
      unfold absorb at h
      split_ifs at h with hid hreplace hkeep
      · obtain ⟨r', hr', rfl⟩ := Attempt.map_eq_ok.mp h
        have hne : n.id ≠ m.id := by
          intro he
          rw [← he, hk, Json.alike_str] at hid
          simp at hid
        rcases ih hr' with ⟨hmem, hids⟩ | ⟨hmem, hids⟩
        · exact .inl ⟨by simp [hmem], by simp [hids]⟩
        · exact .inr ⟨by simpa [hne] using hmem, by simp [hids]⟩
      all_goals
        have hsame : m.id = n.id := by
          rw [hk] at hid ⊢
          exact Json.alike_str_right.mp (by simpa using hid)
        cases h
        exact .inl ⟨by simp [hsame], by simp [hsame]⟩

theorem stands_of_absorb {position : Nat} {n : Node} {k : String} (hk : n.id = .str k)
    {acc acc' : List Node} (h : absorb position n acc = .ok acc') :
    (∀ m ∈ acc', m ∈ acc ∨ m = n) ∧ (∃ m ∈ acc', m.Stands n) ∧
      ∀ x, (∃ m ∈ acc, m.Stands x) → ∃ m ∈ acc', m.Stands x := by
  induction acc generalizing acc' with
  | nil =>
      cases h
      exact ⟨by simp, ⟨n, by simp, .refl n⟩, by simp⟩
  | cons m r ih =>
      unfold absorb at h
      split_ifs at h with hid hreplace hkeep
      · obtain ⟨r', hr', rfl⟩ := Attempt.map_eq_ok.mp h
        obtain ⟨hfrom, ⟨y, hy, hstands⟩, hkeeps⟩ := ih hr'
        refine ⟨?_, ⟨y, List.mem_cons_of_mem _ hy, hstands⟩, ?_⟩
        · intro x hx
          rcases List.mem_cons.mp hx with rfl | hx
          · simp
          · rcases hfrom x hx with hx | hx <;> simp [hx]
        · rintro x ⟨z, hz, hzx⟩
          rcases List.mem_cons.mp hz with rfl | hz
          · exact ⟨z, by simp, hzx⟩
          · obtain ⟨w, hw, hwx⟩ := hkeeps x ⟨z, hz, hzx⟩
            exact ⟨w, List.mem_cons_of_mem _ hw, hwx⟩
      -- from here on the two nodes have one identifier
      all_goals
        have hsame : m.id = n.id := by
          rw [hk] at hid ⊢
          exact Json.alike_str_right.mp (by simpa using hid)
        cases h
      · obtain ⟨hm, hn⟩ : m.isExternal = true ∧ n.isExternal = false := by simpa using hreplace
        refine ⟨?_, ⟨n, by simp, .refl n⟩, ?_⟩
        · intro x hx
          rcases List.mem_cons.mp hx with rfl | hx <;> simp [*]
        · rintro x ⟨z, hz, hzx⟩
          rcases List.mem_cons.mp hz with rfl | hz
          · refine ⟨n, by simp, hsame.symm.trans hzx.id, fun hx => ?_⟩
            have := (hzx.agrees hx).1
            rw [hm] at this
            cases this
          · exact ⟨z, List.mem_cons_of_mem _ hz, hzx⟩
      · refine ⟨fun x hx => .inl hx, ⟨m, by simp, hsame, fun hn => ?_⟩, fun x hx => hx⟩
        have hm : m.isExternal = false := by simpa [hn] using hreplace
        exact ⟨hm, .inr (by simpa [hn] using hkeep)⟩

/-- A node that is absorbed gets a node that stands for it; what was stood for before still is. -/
theorem absorbs_of_absorb {position : Nat} {n : Node} {k : String} (hk : n.id = .str k)
    {acc acc' : List Node} (h : absorb position n acc = .ok acc') : Absorbs acc [n] acc' := by
  obtain ⟨horigin, hstands, hkeeps⟩ := stands_of_absorb hk h
  refine ⟨by simpa using horigin, by simpa using hstands, hkeeps, fun hacc => ?_⟩
  rcases ids_of_absorb hk h with ⟨-, hids⟩ | ⟨hmem, hids⟩
  · rwa [hids]
  · rw [hids]
    exact List.Nodup.append hacc (by simp) (by simpa using hmem)

theorem absorbs_of_absorbAll {position : Nat} {ns acc acc' : List Node}
    (hns : ∀ n ∈ ns, ∃ k, n.id = .str k) (h : absorbAll position acc ns = .ok acc') :
    Absorbs acc ns acc' := by
  induction ns generalizing acc with
  | nil => cases h; exact .refl _
  | cons n r ih =>
      unfold absorbAll at h
      split at h
      · cases h
      next acc1 h1 =>
      obtain ⟨k, hk⟩ := hns n (by simp)
      exact (absorbs_of_absorb hk h1).trans (ih (fun x hx => hns x (List.mem_cons_of_mem _ hx)) h)

/-- The nodes of a composed graph come from the graphs, and each of their nodes has one that stands
for it. -/
theorem absorbs_of_composeNodes {position : Nat} {gs : List PolicyGraph} {acc ns : List Node}
    (hgs : ∀ g ∈ gs, ∀ n ∈ g.nodes, ∃ k, n.id = .str k)
    (h : composeNodes position acc gs = .ok ns) :
    Absorbs acc (gs.flatMap PolicyGraph.nodes) ns := by
  induction gs generalizing acc position with
  | nil => cases h; exact .refl _
  | cons g r ih =>
      unfold composeNodes at h
      split at h
      · cases h
      next acc1 h1 =>
      rw [List.flatMap_cons]
      exact (absorbs_of_absorbAll (hgs g (by simp)) h1).trans
        (ih (fun x hx => hgs x (List.mem_cons_of_mem _ hx)) h)

end PolicyGraph

end Nodes

section Ties

theorem tiesOf_eq_ok {es : List Edge} {ts : List PolicyGraph.Tie}
    (h : PolicyGraph.tiesOf es = .ok ts) :
    ts.map PolicyGraph.Tie.edge = es ∧ ∀ t ∈ ts, PolicyGraph.tieText t.edge = .ok t.text := by
  induction es generalizing ts with
  | nil => cases h; simp
  | cons e r ih =>
      obtain ⟨text, htext, h⟩ := Attempt.bind_eq_ok.mp h
      obtain ⟨rest, hrest, h⟩ := Attempt.bind_eq_ok.mp h
      cases h
      obtain ⟨hmap, htexts⟩ := ih hrest
      refine ⟨by simp [hmap], fun t ht => ?_⟩
      rcases List.mem_cons.mp ht with rfl | ht
      · exact htext
      · exact htexts t ht

/-- Of ties that agree one is kept. -/
theorem exists_firstTies (seen ts : List PolicyGraph.Tie) :
    ∃ kept : List PolicyGraph.Tie, PolicyGraph.firstTies seen ts = kept.map PolicyGraph.Tie.edge ∧
      (∀ t ∈ kept, t ∈ ts ∧ seen.any t.agrees = false) ∧
      kept.Pairwise (fun t u => u.agrees t = false) ∧
      ∀ t ∈ ts, seen.any t.agrees = true ∨ ∃ u ∈ kept, u = t ∨ t.agrees u = true := by
  induction ts generalizing seen with
  | nil => exact ⟨[], rfl, by simp, .nil, by simp⟩
  | cons t r ih =>
      unfold PolicyGraph.firstTies
      by_cases ht : seen.any t.agrees = true
      · obtain ⟨kept, hkept, hnew, hpair, hcover⟩ := ih seen
        refine ⟨kept, by rw [if_pos ht, hkept], fun x hx => ?_, hpair, fun x hx => ?_⟩
        · exact ⟨List.mem_cons_of_mem _ (hnew x hx).1, (hnew x hx).2⟩
        · rcases List.mem_cons.mp hx with rfl | hx
          · exact .inl ht
          · exact hcover x hx
      · obtain ⟨kept, hkept, hnew, hpair, hcover⟩ := ih (t :: seen)
        have hseen : ∀ x ∈ kept, x.agrees t = false ∧ seen.any x.agrees = false := by
          intro x hx
          simpa using (hnew x hx).2
        refine ⟨t :: kept, by rw [if_neg ht, hkept, List.map_cons], fun x hx => ?_, ?_,
          fun x hx => ?_⟩
        · rcases List.mem_cons.mp hx with rfl | hx
          · exact ⟨by simp, by simpa using ht⟩
          · exact ⟨List.mem_cons_of_mem _ (hnew x hx).1, (hseen x hx).2⟩
        · exact List.pairwise_cons.mpr ⟨fun x hx => (hseen x hx).1, hpair⟩
        · rcases List.mem_cons.mp hx with rfl | hx
          · exact .inr ⟨x, by simp, .inl rfl⟩
          · rcases hcover x hx with hx | ⟨u, hu, hxu⟩
            · rw [List.any_cons, Bool.or_eq_true] at hx
              rcases hx with hx | hx
              · exact .inr ⟨t, by simp, .inr hx⟩
              · exact .inl hx
            · exact .inr ⟨u, List.mem_cons_of_mem _ hu, hxu⟩

theorem filter_renumber {Q : Edge → Bool} (hQ : ∀ e i, Q { e with id := i } = Q e) (n : Nat)
    (es : List Edge) :
    List.Forall₂ (fun e e' => ∃ m, e' = { e with id := Edge.numbered m }) (es.filter Q)
      ((PolicyGraph.renumber n es).filter Q) := by
  induction es generalizing n with
  | nil => exact .nil
  | cons e r ih =>
      by_cases he : Q e = true
      · rw [PolicyGraph.renumber, List.filter_cons_of_pos he,
          List.filter_cons_of_pos (by rw [hQ, he])]
        exact .cons ⟨n, rfl⟩ (ih (n + 1))
      · rw [PolicyGraph.renumber, List.filter_cons_of_neg he,
          List.filter_cons_of_neg (by rw [hQ]; exact he)]
        exact ih (n + 1)

end Ties

section Success

namespace PolicyGraph

/-- A graph in which nodes and the ends of edges are named by texts, and edges say what labels
say. -/
structure IsTextual (g : PolicyGraph) : Prop where
  ids : ∀ n ∈ g.nodes, ∃ k, n.id = .str k
  indexable : ∀ n ∈ g.nodes, isIndexable n = true
  ends : ∀ e ∈ g.edges, e.source ∈ g.nodes.map Node.id ∧ e.target ∈ g.nodes.map Node.id
  labels : ∀ e ∈ g.edges, ∃ l : Label, e.properties = Entries.ofFields l.properties

variable {cfg : Settings} {g : PolicyGraph} {p : Plan} {gs : List PolicyGraph}

theorem exists_id_of_mem_layout {n : Node} (hn : n ∈ p.layout cfg) : ∃ k, n.id = .str k := by
  rcases Plan.mem_layout.mp hn with
    ⟨d, -, rfl⟩ | ⟨d, -, c, -, rfl⟩ | ⟨d, -, t, -, rfl⟩ | ⟨q, -, rfl | ho⟩
  · exact ⟨_, rfl⟩
  · exact ⟨_, rfl⟩
  · exact ⟨_, rfl⟩
  · exact ⟨_, rfl⟩
  · rcases Plan.mem_operandNodes ho with ⟨x, -, rfl⟩ | ⟨s, rfl⟩ <;> exact ⟨_, rfl⟩

/-- A graph of nodes and edges without a fault is textual if texts name its nodes and the ends of
its edges, and edges say what labels say. -/
theorem isTextual_of_fault? (hids : ∀ n ∈ g.nodes, ∃ k, n.id = .str k)
    (hends : ∀ e ∈ g.edges, ∃ s t, e.source = .str s ∧ e.target = .str t)
    (hlabels : ∀ e ∈ g.edges, ∃ l : Label, e.properties = Entries.ofFields l.properties)
    (hfault : fault? g.nodes g.edges = none) : g.IsTextual := by
  have hmake := fault?_eq_none_iff.mp hfault
  refine ⟨hids, hmake.indexable, fun e he => ?_, hlabels⟩
  obtain ⟨s, t, hs, ht⟩ := hends e he
  have hjoined := hmake.joined e he
  rw [hs, ht] at hjoined ⊢
  exact ⟨isEnd_str_iff.mp hjoined.1, isEnd_str_iff.mp hjoined.2⟩

/-- Compiled graphs are textual. -/
theorem IsCompiled.isTextual (h : g.IsCompiled cfg) : g.IsTextual := by
  obtain ⟨s, hs, hg⟩ := h
  obtain ⟨p, -, hp⟩ := isDrawnFrom_of_build hs hg
  obtain ⟨p', -, hmake⟩ := build_eq_ok hg
  obtain ⟨hns, hes, hfault⟩ := make_eq_ok hmake
  rw [← hns, ← hes] at hfault
  refine isTextual_of_fault? (fun n hn => exists_id_of_mem_layout (hp.mem_nodes hn))
    (fun e he => ?_) (fun e he => ?_) hfault
  · obtain ⟨m, d, -, rfl⟩ := hp.mem_edges.mp he
    exact ⟨_, _, rfl, rfl⟩
  · obtain ⟨m, d, -, rfl⟩ := hp.mem_edges.mp he
    exact ⟨d.label, rfl⟩

theorem exists_tieText {e : Edge} {l : Label} (h : e.properties = Entries.ofFields l.properties) :
    ∃ t, tieText e = .ok t := by
  have hnames : e.properties.map (·.1) = (l.properties.map (·.1)).map .str := by
    simp [h, Entries.ofFields]
  rw [tieText, hnames, Fault.sorted, Name.sort?_strs]
  exact ⟨_, rfl⟩

theorem exists_tiesOf {es : List Edge} (h : ∀ e ∈ es, ∃ t, tieText e = .ok t) :
    ∃ ts, tiesOf es = .ok ts := by
  induction es with
  | nil => exact ⟨[], rfl⟩
  | cons e r ih =>
      obtain ⟨t, ht⟩ := h e (by simp)
      obtain ⟨ts, hts⟩ := ih fun x hx => h x (List.mem_cons_of_mem _ hx)
      exact ⟨⟨e, t⟩ :: ts, by rw [tiesOf, ht, Attempt.ok_bind, hts]; rfl⟩

theorem mem_renumber {n : Nat} {es : List Edge} {e : Edge} (h : e ∈ renumber n es) :
    ∃ e' ∈ es, ∃ m, e = { e' with id := Edge.numbered m } := by
  induction es generalizing n with
  | nil => simp [renumber] at h
  | cons x r ih =>
      rcases List.mem_cons.mp h with rfl | h
      · exact ⟨x, by simp, n, rfl⟩
      · obtain ⟨e', he', hm⟩ := ih h
        exact ⟨e', List.mem_cons_of_mem _ he', hm⟩

/-- The edges of a composed graph come from the graphs, up to their numbers. -/
theorem mem_of_composeEdges {es : List Edge} (h : composeEdges gs = .ok es) :
    ∀ e ∈ es, ∃ g ∈ gs, ∃ e' ∈ g.edges, ∃ m, e = { e' with id := Edge.numbered m } := by
  obtain ⟨ts, hts, rfl⟩ := Attempt.map_eq_ok.mp h
  obtain ⟨kept, hkept, hnew, -, -⟩ := exists_firstTies [] ts
  intro e he
  obtain ⟨e', he', hm⟩ := mem_renumber he
  rw [hkept] at he'
  obtain ⟨t, ht, rfl⟩ := List.mem_map.mp he'
  have hedge : t.edge ∈ gs.flatMap PolicyGraph.edges := by
    rw [← (tiesOf_eq_ok hts).1]
    exact List.mem_map_of_mem (hnew t ht).1
  obtain ⟨g, hg, hedge⟩ := List.mem_flatMap.mp hedge
  exact ⟨g, hg, t.edge, hedge, hm⟩

/-- The edges of textual graphs can be composed. -/
theorem exists_composeEdges (hgs : ∀ g ∈ gs, g.IsTextual) : ∃ es, composeEdges gs = .ok es ∧
    ∀ e ∈ es, ∃ g ∈ gs, ∃ e' ∈ g.edges, ∃ m, e = { e' with id := Edge.numbered m } := by
  have htexts : ∀ e ∈ gs.flatMap PolicyGraph.edges, ∃ t, tieText e = .ok t := by
    intro e he
    obtain ⟨g, hg, he⟩ := List.mem_flatMap.mp he
    obtain ⟨l, hl⟩ := (hgs g hg).labels e he
    exact exists_tieText hl
  obtain ⟨ts, hts⟩ := exists_tiesOf htexts
  have hes : composeEdges gs = .ok (renumber 0 (firstTies [] ts)) := by
    rw [composeEdges, hts, Attempt.map_ok]
  exact ⟨_, hes, mem_of_composeEdges hes⟩

/-- A graph can be made of nodes of different texts and numbered edges between them. -/
theorem fault?_eq_none {ns : List Node} {es : List Edge} (hns : ∀ n ∈ ns, ∃ k, n.id = .str k)
    (hindex : ∀ n ∈ ns, isIndexable n = true) (hnodup : (ns.map Node.id).Nodup)
    (hends : ∀ e ∈ es, e.source ∈ ns.map Node.id ∧ e.target ∈ ns.map Node.id)
    (hids : ∀ e ∈ es, ∃ m, e.id = Edge.numbered m) : fault? ns es = none := by
  have hend : ∀ x ∈ ns.map Node.id, IsEnd ns x := by
    intro x hx
    obtain ⟨n, hn, rfl⟩ := List.mem_map.mp hx
    obtain ⟨k, hk⟩ := hns n hn
    rw [hk] at hx ⊢
    exact isEnd_str_iff.mpr hx
  refine fault?_eq_none_iff.mpr ⟨(areDistinct_iff_nodup hns).mpr hnodup, fun e he => ?_, hindex,
    fun n hn hnull => ?_, fun e he => ?_⟩
  · exact ⟨hend _ (hends e he).1, hend _ (hends e he).2⟩
  · obtain ⟨k, hk⟩ := hns n hn
    cases hk.symm.trans hnull
  · obtain ⟨m, hm⟩ := hids e he
    rw [hm]
    rfl

/-- A graph composed of other than one graph has their nodes and their edges. -/
theorem compose_eq_ok {c : PolicyGraph} (h : compose gs = .ok c) : gs = [c] ∨
    ∃ ns es, composeNodes 0 [] gs = .ok ns ∧ composeEdges gs = .ok es ∧ c.nodes = ns ∧
      c.edges = es := by
  unfold compose at h
  split at h
  · cases h
    exact .inl rfl
  · split at h
    · cases h
    · cases h
    next ns es hns hes =>
    obtain ⟨hcn, hce, -⟩ := make_eq_ok h
    exact .inr ⟨ns, es, hns, hes, hcn, hce⟩

/-- Composition of textual graphs fails only where two nodes disagree. -/
theorem exists_compose (hgs : ∀ g ∈ gs, g.IsTextual) {ns : List Node}
    (hns : composeNodes 0 [] gs = .ok ns) : ∃ c, compose gs = .ok c := by
  obtain ⟨es, hes, hfrom⟩ := exists_composeEdges hgs
  have habsorbs := absorbs_of_composeNodes (fun g hg => (hgs g hg).ids) hns
  have horigin : ∀ n ∈ ns, ∃ g ∈ gs, n ∈ g.nodes := by
    intro n hn
    rcases habsorbs.origin n hn with hn | hn
    · simp at hn
    · exact List.mem_flatMap.mp hn
  have hids : ∀ g ∈ gs, ∀ x ∈ g.nodes.map Node.id, x ∈ ns.map Node.id := by
    intro g hg x hx
    obtain ⟨n, hn, rfl⟩ := List.mem_map.mp hx
    obtain ⟨m, hm, hstands⟩ := habsorbs.stands n (List.mem_flatMap.mpr ⟨g, hg, hn⟩)
    exact List.mem_map.mpr ⟨m, hm, hstands.id⟩
  have hfault : fault? ns es = none := by
    refine fault?_eq_none (fun n hn => ?_) (fun n hn => ?_) (habsorbs.nodup (by simp))
      (fun e he => ?_) fun e he => ?_
    · obtain ⟨g, hg, hn⟩ := horigin n hn
      exact (hgs g hg).ids n hn
    · obtain ⟨g, hg, hn⟩ := horigin n hn
      exact (hgs g hg).indexable n hn
    · obtain ⟨g, hg, e', he', m, rfl⟩ := hfrom e he
      obtain ⟨hs, ht⟩ := (hgs g hg).ends e' he'
      exact ⟨hids g hg _ hs, hids g hg _ ht⟩
    · obtain ⟨g, hg, e', he', m, rfl⟩ := hfrom e he
      exact ⟨m, rfl⟩
  unfold compose
  split
  · exact ⟨_, rfl⟩
  · obtain ⟨c, hc, -⟩ := exists_make hfault (.ofFields (composedMetadata gs ns es))
    exact ⟨c, by rw [hns, hes]; exact hc⟩

theorem exists_compose_of_isOk (hgs : ∀ g ∈ gs, g.IsTextual)
    (hns : (composeNodes 0 [] gs).isOk = true) : ∃ c, compose gs = .ok c := by
  cases h : composeNodes 0 [] gs with
  | error f =>
      rw [h] at hns
      cases hns
  | ok ns => exact exists_compose hgs h

end PolicyGraph

end Success

end Eligibility
