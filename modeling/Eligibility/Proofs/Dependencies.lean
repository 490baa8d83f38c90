import Mathlib.Data.List.TakeWhile
import Mathlib.Data.String.Basic
import Eligibility.Proofs.CycleSearch
import Eligibility.Proofs.Legibility
/-!
# Cycles of dependencies

**Arcs.**  The edges of a graph that can be read have different numbers, so that parallel ones
stay apart: each of them is an arc of the multigraph.

**Positions.**  The search runs on the positions of nodes.  A text is the identifier of
at most one position, and cycles of positions are cycles of texts.

**Results.**
* `mem_arcsFrom`: the arcs that leave a node.
* `hasArc_iff`: the arcs between positions.
* `exists_cycles`: the cycles that are found are the cycles of dependencies.
-/

namespace Eligibility

section Parallel

namespace Arc

/-- The arc of an edge between two nodes. -/
def ofEdge (source target : Name) (e : Edge) : Arc :=
  ⟨source, target, e.id, e.relation, e.isNegated⟩

/-- An arc whose key is new goes behind the others. -/
theorem insert_of_fresh {a : Arc} {arcs : List Arc}
    (h : ∀ b ∈ arcs, b.key.alike a.key = false) : insert a arcs = arcs ++ [a] := by
  induction arcs with
  | nil => rfl
  | cons b r ih =>
      obtain ⟨hb, hr⟩ := List.forall_mem_cons.mp h
      rw [insert, if_neg (by simp [hb]), ih hr]
      rfl

/-- Edges with different texts as identifiers are arcs of their own. -/
theorem ofParallel_eq_map (source target : Name) {es : List Edge}
    (hids : ∀ e ∈ es, ∃ k, e.id = .str k) (hdistinct : es.Pairwise fun a b => a.id ≠ b.id) :
    ofParallel source target es = es.map (ofEdge source target) := by
  have hfold : ∀ (r seen : List Edge), (∀ e ∈ r, ∃ k, e.id = .str k) →
      (seen ++ r).Pairwise (fun a b => a.id ≠ b.id) →
      r.foldl (fun arcs e => insert ⟨source, target, keyOf arcs e, e.relation, e.isNegated⟩ arcs)
        (seen.map (ofEdge source target)) = (seen ++ r).map (ofEdge source target) := by
    intro r
    induction r with
    | nil => exact fun seen _ _ => by simp
    | cons e r ih =>
        intro seen hids hdistinct
        obtain ⟨⟨k, hk⟩, hrest⟩ := List.forall_mem_cons.mp hids
        have hkey : ∀ arcs, keyOf arcs e = e.id := by
          intro arcs
          simp [keyOf, hk]
        have hfresh : ∀ b ∈ seen.map (ofEdge source target), b.key.alike e.id = false := by
          intro b hb
          obtain ⟨f, hf, rfl⟩ := List.mem_map.mp hb
          have hne := (List.pairwise_append.mp hdistinct).2.2 f hf e (by simp)
          rw [hk] at hne ⊢
          exact Bool.eq_false_iff.mpr fun halike => hne (Json.alike_str_right.mp halike)
        have happend : seen.map (ofEdge source target) ++ [ofEdge source target e] =
            (seen ++ [e]).map (ofEdge source target) := by simp
        rw [List.foldl_cons, hkey, insert_of_fresh hfresh]
        rw [List.append_cons seen e r] at hdistinct ⊢
        exact (congrArg (List.foldl _ · r) happend).trans (ih _ hrest hdistinct)
  exact hfold es [] hids hdistinct

end Arc

end Parallel

namespace PolicyGraph

variable {g : PolicyGraph}

/-- Whether one node depends on another one. -/
def DependsOn (g : PolicyGraph) (s t : String) : Prop :=
  ∃ e ∈ g.edges, e.relation.isDependency = true ∧ e.source = .str s ∧ e.target = .str t

section Arcs

/-- The arcs that leave a node are its edges. -/
theorem IsLegible.mem_arcsFrom (h : g.IsLegible) {n : Node} {k : String}
    (hk : n.id = .str k) {a : Arc} :
    a ∈ g.arcsFrom n ↔ ∃ e ∈ g.edges, e.source = .str k ∧ a = .ofEdge n.id e.target e := by
  obtain ⟨htexts, hdistinct⟩ := h.numbers
  set es := g.index.outgoing.members n.id with hes
  have hmem : ∀ e, e ∈ es ↔ e ∈ g.edges ∧ e.source = .str k := by
    intro e
    rw [hes, hk, outgoing_members, List.mem_filter, Json.alike_str_right]
  have hsub : es.Sublist g.edges := by
    rw [hes, hk, outgoing_members]
    exact List.filter_sublist
  -- the edges of a group lead to one node, and none of them hides another one
  have hgroup : ∀ q ∈ Grouping.ofList (fun e => some e.target) es,
      Arc.ofParallel n.id q.1 q.2 = q.2.map (.ofEdge n.id q.1) ∧ ∀ e ∈ q.2, e.target = q.1 := by
    intro q hq
    obtain ⟨-, hqsub, hnames⟩ := Grouping.areOf_ofList _ _ q hq
    have hall := hqsub.trans hsub
    refine ⟨Arc.ofParallel_eq_map _ _ (fun e he => htexts e (hall.subset he))
      (hdistinct.sublist hall), fun e he => ?_⟩
    obtain ⟨m, hm, hname⟩ := hnames e he
    obtain ⟨s, t, -, ht⟩ := h.ends e (hall.subset he)
    obtain rfl := Option.some.inj hm
    rcases hname with hname | hname
    · exact hname.symm
    · rw [ht] at hname ⊢
      exact (Json.alike_str_right.mp hname).symm
  rw [arcsFrom, List.mem_flatMap]
  constructor
  · rintro ⟨q, hq, ha⟩
    obtain ⟨hmap, htarget⟩ := hgroup q hq
    rw [hmap] at ha
    obtain ⟨e, he, rfl⟩ := List.mem_map.mp ha
    obtain ⟨-, hqsub, -⟩ := Grouping.areOf_ofList _ _ q hq
    obtain ⟨hedge, hsource⟩ := (hmem e).mp (hqsub.subset he)
    exact ⟨e, hedge, hsource, by rw [htarget e he]⟩
  · rintro ⟨e, he, hsource, rfl⟩
    obtain ⟨s, t, -, ht⟩ := h.ends e he
    have hmember : e ∈ (Grouping.ofList (fun e => some e.target) es).members (.str t) := by
      rw [Grouping.members_ofList, List.mem_filter]
      exact ⟨(hmem _).mpr ⟨he, hsource⟩, by simp [ht]⟩
    obtain ⟨q, hq, heq⟩ := Grouping.mem_of_mem_members hmember
    obtain ⟨hmap, htarget⟩ := hgroup q hq
    refine ⟨q, hq, ?_⟩
    rw [hmap, htarget _ heq]
    exact List.mem_map_of_mem heq

/-- One node depends on another one where an arc says so. -/
theorem IsLegible.mem_dependencies (h : g.IsLegible) {a : Arc} :
    a ∈ g.dependencies ↔ ∃ n ∈ g.nodes, ∃ e ∈ g.edges,
      e.relation.isDependency = true ∧ e.source = n.id ∧ a = .ofEdge n.id e.target e := by
  rw [dependencies, arcs, List.mem_filter, List.mem_flatMap]
  constructor
  · rintro ⟨⟨n, hn, ha⟩, hrelation⟩
    obtain ⟨k, hk⟩ := h.ids n hn
    obtain ⟨e, he, hsource, rfl⟩ := (h.mem_arcsFrom hk).mp ha
    exact ⟨n, hn, e, he, hrelation, hsource.trans hk.symm, rfl⟩
  · rintro ⟨n, hn, e, he, hrelation, hsource, rfl⟩
    obtain ⟨k, hk⟩ := h.ids n hn
    exact ⟨⟨n, hn, (h.mem_arcsFrom hk).mpr ⟨e, he, hsource.trans hk, rfl⟩⟩, hrelation⟩

end Arcs

section Positions

/-- The node at the position of a text has that text. -/
theorem id_of_position? {s : String} {i : Nat} (h : g.position? (.str s) = some i) :
    (g.nodes.map Node.id)[i]? = some (.str s) := by
  obtain ⟨hi, halike, -⟩ := List.findIdx?_eq_some_iff_getElem.mp h
  rw [List.getElem?_map, List.getElem?_eq_getElem hi]
  exact congrArg some (Json.alike_str_right.mp halike)

theorem exists_position {s : String} {n : Node} (h : g.node? (.str s) = some n) :
    ∃ i, g.position? (.str s) = some i := by
  obtain ⟨hn, hid⟩ := node?_spec h
  refine Option.isSome_iff_exists.mp ?_
  rw [position?, List.findIdx?_isSome, List.any_eq_true]
  exact ⟨n, hn, Json.alike_str_right.mpr hid⟩

/-- An arc between positions is a dependency between their texts. -/
theorem IsLegible.hasArc_iff (h : g.IsLegible) {i j : Nat} :
    g.dependencyGraph.HasArc i j ↔ ∃ s t, g.DependsOn s t ∧ g.position? (.str s) = some i ∧
      g.position? (.str t) = some j := by
  rw [Digraph.HasArc, dependencyGraph, List.mem_filterMap]
  constructor
  · rintro ⟨a, ha, hpositions⟩
    obtain ⟨n, -, e, he, hrelation, hsource, rfl⟩ := h.mem_dependencies.mp ha
    split at hpositions
    next s t hs ht =>
      obtain ⟨rfl, rfl⟩ := Prod.mk.inj (Option.some.inj hpositions)
      obtain ⟨x, y, hx, hy⟩ := h.ends e he
      simp only [Arc.ofEdge, ← hsource, hx, hy] at hs ht
      exact ⟨x, y, ⟨e, he, hrelation, hx, hy⟩, hs, ht⟩
    · cases hpositions
  · rintro ⟨s, t, ⟨e, he, hrelation, hsource, htarget⟩, hi, hj⟩
    have hid := id_of_position? hi
    rw [List.getElem?_map, Option.map_eq_some_iff] at hid
    obtain ⟨n, hn, hns⟩ := hid
    refine ⟨.ofEdge n.id e.target e, h.mem_dependencies.mpr
      ⟨n, List.mem_of_getElem? hn, e, he, hrelation, hsource.trans hns.symm, rfl⟩, ?_⟩
    simp only [Arc.ofEdge, hns, htarget, hi, hj]

/-- The text of the node at a position. -/
def keyAt (g : PolicyGraph) (i : Nat) : String :=
  match (g.nodes.map Node.id)[i]? with
  | some (.str s) => s
  | _ => ""

theorem keyAt_position {s : String} {i : Nat} (h : g.position? (.str s) = some i) :
    g.keyAt i = s := by
  rw [keyAt, id_of_position? h]

/-- The position of a text. -/
def positionOf (g : PolicyGraph) (s : String) : Nat := (g.position? (.str s)).getD 0

theorem positionOf_eq {s : String} {i : Nat} (h : g.position? (.str s) = some i) :
    g.positionOf s = i := by
  rw [positionOf, h, Option.getD_some]

end Positions

section Cycles

/-- What depends on something is a node. -/
theorem IsLegible.exists_node_of_dependsOn (h : g.IsLegible) {s t : String}
    (hst : g.DependsOn s t) : ∃ n, g.node? (.str s) = some n := by
  obtain ⟨e, he, hrelation, hsource, -⟩ := hst
  obtain ⟨n, hn, hid⟩ := List.mem_map.mp (h.sources e he hrelation)
  exact ⟨n, h.node?_of_mem hn (hid.trans hsource)⟩

/-- The first of several texts. -/
theorem exists_least (x : String) (xs : List String) :
    ∃ m, Name.least? (.str x) (xs.map .str) = some (.str m) ∧ m ∈ x :: xs ∧
      ∀ y ∈ x :: xs, m ≤ y := by
  induction xs generalizing x with
  | nil => exact ⟨x, rfl, by simp, by simp⟩
  | cons y r ih =>
      have hbefore : Name.before? (.str y) (.str x) = some (decide (y < x)) := by
        rw [Name.before?]
      rw [List.map_cons, Name.least?, hbefore]
      by_cases hyx : y < x
      · obtain ⟨m, hm, hmem, hleast⟩ := ih y
        rw [decide_eq_true hyx]
        refine ⟨m, hm, List.mem_cons_of_mem _ hmem, List.forall_mem_cons.mpr ⟨?_, hleast⟩⟩
        exact (hleast y List.mem_cons_self).trans hyx.le
      · obtain ⟨m, hm, hmem, hleast⟩ := ih x
        obtain ⟨hx, hr⟩ := List.forall_mem_cons.mp hleast
        rw [decide_eq_false hyx]
        refine ⟨m, hm, ?_, List.forall_mem_cons.mpr
          ⟨hx, List.forall_mem_cons.mpr ⟨hx.trans (not_lt.mp hyx), hr⟩⟩⟩
        exact (List.mem_cons.mp hmem).elim (fun h => h ▸ List.mem_cons_self)
          fun h => List.mem_cons_of_mem _ (List.mem_cons_of_mem _ h)

/-- A cycle of texts is turned so that it begins with its least text. -/
theorem exists_arrangeCycle {xs : List String} (hxs : xs ≠ []) :
    ∃ ys, xs ~r ys ∧ BeginsLeast ys ∧ arrangeCycle (xs.map .str) = .ok (ys.map .str) := by
  cases xs with
  | nil => exact absurd rfl hxs
  | cons x r =>
      obtain ⟨m, hm, hmem, hleast⟩ := exists_least x r
      set P : String → Bool := (fun n : Name => !n.alike (.str m)) ∘ Json.str with hP
      have hrotated : x :: r ~r (x :: r).dropWhile P ++ (x :: r).takeWhile P := by
        nth_rewrite 1 [← List.takeWhile_append_dropWhile (p := P) (l := x :: r)]
        exact List.isRotated_append
      have hnotAll : (x :: r).dropWhile P ≠ [] := by
        intro hnil
        have hself := List.dropWhile_eq_nil_iff.mp hnil m hmem
        simp [hP] at hself
      have hfirst : ((x :: r).dropWhile P).head hnotAll = m := by
        have hhead := List.head_dropWhile_not P hnotAll
        simpa [hP] using hhead
      refine ⟨_, hrotated, ⟨m, ((x :: r).dropWhile P).tail ++ (x :: r).takeWhile P, ?_,
        fun y hy => hleast y (hrotated.mem_iff.mpr hy)⟩, ?_⟩
      · rw [← List.cons_append, ← hfirst, List.cons_head_tail]
      · rw [List.map_cons, arrangeCycle, hm, List.map_append, ← List.takeWhile_map,
          ← List.dropWhile_map]
        rfl

/-- A cycle of positions is a cycle of texts. -/
theorem IsLegible.isCycle_keyAt (h : g.IsLegible) {vs : List Nat}
    (hvs : IsCycle g.dependencyGraph.HasArc vs) :
    IsCycle g.DependsOn (vs.map g.keyAt) ∧ (vs.map g.keyAt).map g.positionOf = vs ∧
      vs.filterMap (fun v => (g.nodes.map Node.id)[v]?) = (vs.map g.keyAt).map .str := by
  have hposition : ∀ v ∈ vs, ∃ s, g.position? (.str s) = some v := by
    intro v hv
    obtain ⟨w, -, harc⟩ := hvs.exists_next hv
    obtain ⟨s, t, -, hs, -⟩ := h.hasArc_iff.mp harc
    exact ⟨s, hs⟩
  refine ⟨?_, ?_, ?_⟩
  · refine hvs.map (fun v hv w hw heq => ?_) fun v _ w _ harc => ?_
    · obtain ⟨s, hs⟩ := hposition v hv
      obtain ⟨t, ht⟩ := hposition w hw
      rw [keyAt_position hs, keyAt_position ht] at heq
      rw [heq, ht] at hs
      exact (Option.some.inj hs).symm
    · obtain ⟨s, t, hst, hs, ht⟩ := h.hasArc_iff.mp harc
      rwa [keyAt_position hs, keyAt_position ht]
  · rw [List.map_map]
    refine (List.map_congr_left fun v hv => ?_).trans (List.map_id vs)
    obtain ⟨s, hs⟩ := hposition v hv
    rw [Function.comp_apply, keyAt_position hs, positionOf_eq hs, id]
  · clear hvs
    induction vs with
    | nil => rfl
    | cons v r ih =>
        obtain ⟨⟨s, hs⟩, hrest⟩ := List.forall_mem_cons.mp hposition
        rw [List.filterMap_cons_some (id_of_position? hs), ih hrest, List.map_cons, List.map_cons,
          keyAt_position hs]

/-- A cycle of texts is a cycle of positions. -/
theorem IsLegible.isCycle_positionOf (h : g.IsLegible) {ks : List String}
    (hks : IsCycle g.DependsOn ks) :
    IsCycle g.dependencyGraph.HasArc (ks.map g.positionOf) ∧
      (ks.map g.positionOf).map g.keyAt = ks ∧
        ks.map g.positionOf ⊆ g.dependencyGraph.vertices := by
  have hget : ∀ s ∈ ks, g.position? (.str s) = some (g.positionOf s) := by
    intro s hs
    obtain ⟨t, -, hst⟩ := hks.exists_next hs
    obtain ⟨n, hn⟩ := h.exists_node_of_dependsOn hst
    obtain ⟨i, hi⟩ := exists_position hn
    rw [positionOf_eq hi, hi]
  refine ⟨?_, ?_, ?_⟩
  · refine hks.map (fun s hs t ht heq => ?_) fun s hs t ht hst => ?_
    · rw [← keyAt_position (hget s hs), heq, keyAt_position (hget t ht)]
    · exact h.hasArc_iff.mpr ⟨s, t, hst, hget s hs, hget t ht⟩
  · rw [List.map_map]
    exact (List.map_congr_left fun s hs => keyAt_position (hget s hs)).trans (List.map_id ks)
  · intro i hi
    obtain ⟨s, hs, rfl⟩ := List.mem_map.mp hi
    obtain ⟨hlt, -⟩ := List.findIdx?_eq_some_iff_findIdx_eq.mp (hget s hs)
    exact List.mem_range.mpr hlt

/-- The search gives cycles of dependencies, each of them once, from its least text. -/
theorem IsLegible.exists_cycles (h : g.IsLegible) :
    ∃ found : List (List String), g.cycles = .ok (found.map fun ks => ks.map .str) ∧
      found.Nodup ∧ (∀ ks ∈ found, IsCycle g.DependsOn ks ∧ BeginsLeast ks) ∧
      ∀ ks, IsCycle g.DependsOn ks → ∃ ls ∈ found, ls ~r ks := by
  have harrange : ∀ vs ∈ g.dependencyGraph.cycles, ∃ ks : List String,
      arrangeCycle (vs.filterMap fun v => (g.nodes.map Node.id)[v]?) = .ok (ks.map .str) ∧
        vs ∈ g.dependencyGraph.cycles ∧ vs.map g.keyAt ~r ks ∧ BeginsLeast ks := by
    intro vs hvs
    obtain ⟨hcycle, -, hnames⟩ := h.isCycle_keyAt (Digraph.isCycle_of_mem_cycles hvs)
    obtain ⟨x, r, hxr, -⟩ := hcycle.closed
    have hne : vs.map g.keyAt ≠ [] := by rw [hxr]; exact List.cons_ne_nil x r
    obtain ⟨ks, hrotated, hbegins, harrange⟩ := exists_arrangeCycle hne
    exact ⟨ks, by rw [hnames, harrange], hvs, hrotated, hbegins⟩
  obtain ⟨found, hall⟩ := Attempt.exists_forall₂ harrange
  refine ⟨found, ?_, ?_, fun ks hks => ?_, fun ks hks => ?_⟩
  · refine Attempt.mapM_eq_ok.mpr (List.forall₂_map_right_iff.mpr ?_)
    exact hall.imp fun _ _ hks => hks.1
  · -- a cycle of texts leads back to one of positions, which begins with its least position
    refine Attempt.pairwise_right hall (Digraph.nodup_cycles List.nodup_range) ?_
    rintro vs ws ks ls ⟨-, hvs, hks, -⟩ ⟨-, hws, hls, -⟩ hne rfl
    obtain ⟨-, hback, -⟩ := h.isCycle_keyAt (Digraph.isCycle_of_mem_cycles hvs)
    obtain ⟨-, hback', -⟩ := h.isCycle_keyAt (Digraph.isCycle_of_mem_cycles hws)
    have hturned : vs ~r ws := by
      have hmap := (hks.trans hls.symm).map g.positionOf
      rwa [hback, hback'] at hmap
    exact hne (eq_of_isRotated hturned (Digraph.isCycle_of_mem_cycles hvs).distinct
      (Digraph.beginsLeast_of_mem_cycles hvs) (Digraph.beginsLeast_of_mem_cycles hws))
  · obtain ⟨vs, -, -, hvs, hrotated, hbegins⟩ := Attempt.exists_left hall hks
    have hcycle := (h.isCycle_keyAt (Digraph.isCycle_of_mem_cycles hvs)).1
    exact ⟨hcycle.of_isRotated hrotated, hbegins⟩
  · obtain ⟨hpositions, hback, hvertices⟩ := h.isCycle_positionOf hks
    obtain ⟨ws, hws, hrotated⟩ := Digraph.exists_mem_cycles hpositions hvertices
    obtain ⟨ls, hls, -, -, hturned, -⟩ := Attempt.exists_right hall hws
    refine ⟨ls, hls, hturned.symm.trans ?_⟩
    have hmap := hrotated.map g.keyAt
    rwa [hback] at hmap

end Cycles

end PolicyGraph
end Eligibility
