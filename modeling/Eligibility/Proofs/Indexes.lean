import Mathlib.Data.List.Nodup
import Eligibility.Proofs.GraphConditions
import Eligibility.Proofs.Planning
/-!
# The index of a graph against its lists

**Index.**  A graph looks things up in tables that are filled once, group by group, in passes
over its nodes and edges.  Every answer is what a filter of the lists gives, in their order:
also where edges run side by side, lead back to the node they leave, or share a position.

**Refusals.**  Where what is looked up by is a text, a graph is refused exactly where two nodes
have one identifier or an edge has an end that is no node.

**Results.**
* `isStableSort_mergeSort`: merging sorts, and keeps the order of items with one key.
* `fault?_report_iff`: what is refused with a report.
* `outEdges_eq_filter`, `inEdges_eq_filter`: the edges of a node, by direction and relation.
* `position?_str_iff`: positions and identifiers of nodes belong together.
* `ruleChildren_eq_ok`, `exists_position_of_ruleChildren`: the conditions below a node.
* `make_refused_or_indexed`: a graph is refused, or answers as the filters do.
-/

namespace Eligibility

/-- The text of a name that is one. -/
def Name.text? : Name → Option String
  | .str s => some s
  | _ => none

theorem Name.text?_eq_some {n : Name} {s : String} : Name.text? n = some s ↔ n = .str s := by
  cases n <;> simp [Name.text?]

theorem Name.alike_str_eq (n : Name) (s : String) :
    n.alike (.str s) = decide (Name.text? n = some s) := by
  rw [Bool.eq_iff_iff, Json.alike_str_right, decide_eq_true_eq, Name.text?_eq_some]

section Sorting

variable {α : Type} {key : α → Int} {xs : List α}

/-- Whether a list has the items of another one in the order of their keys, those with one key in
the order in which they were. -/
structure IsStableSort (key : α → Int) (xs ys : List α) : Prop where
  perm : ys.Perm xs
  sorted : ys.Pairwise fun a b => key a ≤ key b
  stable : ∀ i, ys.filter (fun a => decide (key a = i)) = xs.filter fun a => decide (key a = i)

/-- Merging sorts by keys, and keeps the order of items with one key. -/
theorem isStableSort_mergeSort (key : α → Int) (xs : List α) :
    IsStableSort key xs (xs.mergeSort fun a b => decide (key a ≤ key b)) := by
  have htrans : ∀ a b c : α, decide (key a ≤ key b) = true → decide (key b ≤ key c) = true →
      decide (key a ≤ key c) = true := by
    intro a b c hab hbc
    simp only [decide_eq_true_eq] at hab hbc ⊢
    omega
  have htotal : ∀ a b : α, (decide (key a ≤ key b) || decide (key b ≤ key a)) = true := by
    intro a b
    simp only [Bool.or_eq_true, decide_eq_true_eq]
    omega
  have hperm : (xs.mergeSort fun a b => decide (key a ≤ key b)).Perm xs := List.mergeSort_perm _ _
  refine ⟨hperm, ?_, fun i => ?_⟩
  · simpa using List.pairwise_mergeSort htrans htotal xs
  · have hgroup : (xs.filter fun a => decide (key a = i)).Pairwise
        fun a b => decide (key a ≤ key b) = true := by
      refine List.pairwise_of_forall_mem_list fun a ha b hb => ?_
      have hai : key a = i := by simpa using (List.mem_filter.mp ha).2
      have hbi : key b = i := by simpa using (List.mem_filter.mp hb).2
      simp [hai, hbi]
    have hsub := (List.sublist_mergeSort htrans htotal hgroup List.filter_sublist).filter
      fun a => decide (key a = i)
    rw [List.filter_filter] at hsub
    simp only [Bool.and_self] at hsub
    exact (hsub.eq_of_length (hperm.filter _).length_eq.symm).symm

end Sorting

namespace PolicyGraph

/-- Whether nodes have texts as identifiers and are looked up by texts, and edges have names and
names as their ends. -/
structure AreTextual (ns : List Node) (es : List Edge) : Prop where
  ids : ∀ n ∈ ns, ∃ k, n.id = .str k
  subjects : ∀ n ∈ ns, ∀ x, n.subject? = some x → ∃ k, x = .str k
  clauses : ∀ n ∈ ns, ∀ c, n.clause? = some c → ∃ k, c = .str k
  edges : ∀ e ∈ es, Name.isUsable e.id = true
  ends : ∀ e ∈ es, Name.isUsable e.source = true ∧ Name.isUsable e.target = true

section Refusals

variable {ns : List Node} {es : List Edge}

theorem isEnd_iff (hns : ∀ n ∈ ns, ∃ k, n.id = .str k) {n : Name} (hn : Name.isUsable n = true) :
    IsEnd ns n ↔ n ∈ ns.map Node.id := by
  rw [IsEnd, and_iff_right hn, Json.among, List.any_eq_true]
  constructor
  · rintro ⟨x, hx, halike⟩
    obtain ⟨m, hm, rfl⟩ := List.mem_map.mp hx
    obtain ⟨k, hk⟩ := hns m hm
    rw [hk, Json.alike_str_right] at halike
    rwa [halike, ← hk]
  · intro hmem
    obtain ⟨m, hm, rfl⟩ := List.mem_map.mp hmem
    obtain ⟨k, hk⟩ := hns m hm
    exact ⟨m.id, hmem, by simp [hk]⟩

theorem AreTextual.isIndexable (h : AreTextual ns es) {n : Node} (hn : n ∈ ns) :
    isIndexable n = true := by
  have hsubject : n.subject?.all Name.isUsable = true := by
    cases hx : n.subject? with
    | none => rfl
    | some x =>
        obtain ⟨k, rfl⟩ := h.subjects n hn x hx
        rfl
  have hclause : n.clause?.all Name.isUsable = true := by
    cases hc : n.clause? with
    | none => rfl
    | some c =>
        obtain ⟨k, rfl⟩ := h.clauses n hn c hc
        rfl
  rw [PolicyGraph.isIndexable, hsubject, hclause]
  rfl

/-- Nodes and edges make a graph unless two nodes have one identifier or an edge has an end that
is no node. -/
theorem AreTextual.fault?_eq_none_iff (h : AreTextual ns es) : fault? ns es = none ↔
    (ns.map Node.id).Nodup ∧
      ∀ e ∈ es, e.source ∈ ns.map Node.id ∧ e.target ∈ ns.map Node.id := by
  have hends : AreJoined ns es ↔
      ∀ e ∈ es, e.source ∈ ns.map Node.id ∧ e.target ∈ ns.map Node.id := by
    refine forall₂_congr fun e he => ?_
    rw [isEnd_iff h.ids (h.ends e he).1, isEnd_iff h.ids (h.ends e he).2]
  rw [PolicyGraph.fault?_eq_none_iff, ← areDistinct_iff_nodup h.ids, ← hends]
  constructor
  · exact fun hmake => ⟨hmake.distinct, hmake.joined⟩
  · rintro ⟨hdistinct, hjoined⟩
    refine ⟨hdistinct, hjoined, fun n hn => h.isIndexable hn, fun n hn => ?_, h.edges⟩
    obtain ⟨k, hk⟩ := h.ids n hn
    simp [hk]

theorem exists_of_nodeFault? {seen : List Name} {f : Fault}
    (hns : ∀ n ∈ ns, Name.isUsable n.id = true) (hf : nodeFault? seen ns = some f) :
    ∃ id, f = .duplicateNode id := by
  induction ns generalizing seen with
  | nil => simp [nodeFault?] at hf
  | cons n r ih =>
      obtain ⟨hn, hr⟩ := List.forall_mem_cons.mp hns
      rw [nodeFault?, if_neg (by simp [hn])] at hf
      split_ifs at hf
      · cases hf
        exact ⟨_, rfl⟩
      · exact ih hr hf

theorem exists_of_edgeFault? {known : List Name} {f : Fault}
    (hes : ∀ e ∈ es, Name.isUsable e.source = true ∧ Name.isUsable e.target = true)
    (hf : edgeFault? known es = some f) : ∃ edge node, f = .unknownEndpoint edge node := by
  obtain ⟨e, he, hf⟩ := List.exists_of_findSome?_eq_some hf
  have hendpoint : ∀ n, Name.isUsable n = true → endpointFault? known e n = some f →
      ∃ edge node, f = .unknownEndpoint edge node := by
    intro n hn hfn
    rw [endpointFault?, if_neg (by simp [hn])] at hfn
    split_ifs at hfn
    cases hfn
    exact ⟨_, _, rfl⟩
  rcases Option.or_eq_some_iff.mp hf with hsource | ⟨-, htarget⟩
  · exact hendpoint _ (hes e he).1 hsource
  · exact hendpoint _ (hes e he).2 htarget

/-- Whether a fault is reported under the code of malformed graphs. -/
def IsInvalidGraph (f : Fault) : Prop := ∃ r, f.report? = some r ∧ r.code = "INVALID_GRAPH"

/-- Whatever is refused is reported as a malformed graph. -/
theorem AreTextual.isInvalidGraph (h : AreTextual ns es) {f : Fault} (hf : fault? ns es = some f) :
    IsInvalidGraph f := by
  rw [fault?, Option.or_eq_some_iff, Option.or_eq_some_iff] at hf
  rcases hf with (hnode | ⟨-, hedge⟩) | ⟨-, hrest⟩
  · have husable : ∀ n ∈ ns, Name.isUsable n.id = true := by
      intro n hn
      obtain ⟨k, hk⟩ := h.ids n hn
      rw [hk]
      rfl
    obtain ⟨id, rfl⟩ := exists_of_nodeFault? husable hnode
    exact ⟨_, rfl, rfl⟩
  · obtain ⟨edge, node, rfl⟩ := exists_of_edgeFault? h.ends hedge
    exact ⟨_, rfl, rfl⟩
  · have hindexable : ns.all PolicyGraph.isIndexable = true :=
      List.all_eq_true.mpr fun n hn => h.isIndexable hn
    have hnull : (ns.any fun n => isNull n.id) = false := by
      rw [List.any_eq_false]
      intro n hn
      obtain ⟨k, hk⟩ := h.ids n hn
      simp [hk, isNull]
    have hlabels : (es.all fun e => Name.isUsable e.id) = true := List.all_eq_true.mpr h.edges
    simp [hindexable, hnull, hlabels] at hrest

end Refusals

section Answers

variable {g : PolicyGraph}

/-- Whether an edge is of a relation that is asked for, if one is. -/
abbrev IsAskedFor (r : Option Relation) (e : Edge) : Prop := r = none ∨ r = some e.relation

theorem ofRelation_eq_filter (r : Option Relation) (es : List Edge) :
    ofRelation r es = es.filter fun e => decide (IsAskedFor r e) := by
  cases r with
  | none => simp [ofRelation, IsAskedFor]
  | some r => simp [ofRelation, IsAskedFor, eq_comm]

/-- The edges that leave a node, as a filter gives them. -/
theorem outEdges_eq_filter {k : String} (hk : g.hasNode (.str k) = true) (r : Option Relation) :
    g.outEdges (.str k) r =
      .ok (g.edges.filter fun e => decide (Name.text? e.source = some k ∧ IsAskedFor r e)) := by
  obtain ⟨n, hn⟩ := Option.isSome_iff_exists.mp hk
  rw [outEdges, node_eq_ok.mpr hn, Attempt.map_ok, outgoing_members, ofRelation_eq_filter,
    List.filter_filter]
  simp only [Name.alike_str_eq, Bool.decide_and, Bool.and_comm]

/-- The edges that enter a node, as a filter gives them. -/
theorem inEdges_eq_filter {k : String} (hk : g.hasNode (.str k) = true) (r : Option Relation) :
    g.inEdges (.str k) r =
      .ok (g.edges.filter fun e => decide (Name.text? e.target = some k ∧ IsAskedFor r e)) := by
  obtain ⟨n, hn⟩ := Option.isSome_iff_exists.mp hk
  rw [inEdges, node_eq_ok.mpr hn, Attempt.map_ok, incoming_members, ofRelation_eq_filter,
    List.filter_filter]
  simp only [Name.alike_str_eq, Bool.decide_and, Bool.and_comm]

/-- The comparisons with a variable, as a filter gives them. -/
theorem conditionsOn_eq_filter (g : PolicyGraph) (x : String) : g.conditionsOn (.str x) =
    g.nodes.filter fun n => decide (n.isLeaf = true ∧ Name.text? n.subject = some x) := by
  rw [conditionsOn, g.indexed]
  simp only [Index.of, Grouping.members_ofList]
  refine List.filter_congr fun n _ => ?_
  rw [Node.subject?]
  cases n.isLeaf <;> simp [Name.alike_str_eq]

/-- The node of a clause and the conditions that cite it, as a filter gives them. -/
theorem nodesOfClause_eq_filter (g : PolicyGraph) (c : String) : g.nodesOfClause (.str c) =
    g.nodes.filter fun n => decide (n.kind = .clause ∧ Name.text? n.ownClause = some c ∨
      n.kind = .condition ∧ Name.text? n.citedClause = some c) := by
  rw [nodesOfClause, g.indexed]
  simp only [Index.of, Grouping.members_ofList]
  refine List.filter_congr fun n _ => ?_
  rw [Node.clause?]
  cases n.kind <;> simp [Name.alike_str_eq]

/-- A search finds an item exactly where there is one, if there is at most one. -/
theorem find?_eq_some_iff_of_unique {α : Type} {p : α → Bool} {xs : List α}
    (hunique : ∀ a ∈ xs, ∀ b ∈ xs, p a = true → p b = true → a = b) {a : α} :
    xs.find? p = some a ↔ a ∈ xs ∧ p a = true := by
  refine ⟨fun h => ⟨List.mem_of_find?_eq_some h, List.find?_some h⟩, ?_⟩
  rintro ⟨ha, hpa⟩
  cases h : xs.find? p with
  | none => exact absurd hpa (List.find?_eq_none.mp h a ha)
  | some b => rw [hunique a ha b (List.mem_of_find?_eq_some h) hpa (List.find?_some h)]

variable (hids : (g.nodes.map Node.id).Nodup)

include hids

theorem id_injective {m n : Node} (hm : m ∈ g.nodes) (hn : n ∈ g.nodes) (h : m.id = n.id) :
    m = n :=
  List.inj_on_of_nodup_map hids hm hn h

/-- Positions and identifiers of nodes belong together. -/
theorem position?_str_iff {k : String} {i : ℕ} :
    g.position? (.str k) = some i ↔ ∃ n, g.nodes[i]? = some n ∧ n.id = .str k := by
  rw [position?, List.findIdx?_eq_some_iff_getElem]
  constructor
  · rintro ⟨hi, hid, -⟩
    exact ⟨g.nodes[i], List.getElem?_eq_getElem hi, Json.alike_str_right.mp hid⟩
  · rintro ⟨n, hn, hid⟩
    obtain ⟨hi, rfl⟩ := List.getElem?_eq_some_iff.mp hn
    refine ⟨hi, Json.alike_str_right.mpr hid, fun j hj halike => ?_⟩
    have hsame : (g.nodes.map Node.id)[j]? = (g.nodes.map Node.id)[i]? := by
      simp [Nat.lt_trans hj hi, hi, hid, Json.alike_str_right.mp halike]
    have hj' : j < (g.nodes.map Node.id).length := by
      rw [List.length_map]
      exact Nat.lt_trans hj hi
    exact Nat.ne_of_lt hj ((List.getElem?_inj hj' hids).mp hsame)

/-- The target of an edge among the nodes of a kind, as a search gives it. -/
theorem targetOf?_eq_find? {e : Edge} {t : String} (ht : e.target = .str t) (kind : NodeKind) :
    g.targetOf? kind e =
      g.nodes.find? fun m => decide (Name.text? m.id = Name.text? e.target ∧ m.kind = kind) := by
  have hself : Name.text? e.target = some t := Name.text?_eq_some.mpr ht
  ext m
  rw [find?_eq_some_iff_of_unique, targetOf?, Option.filter_eq_some_iff, ht, node?,
    find?_eq_some_iff_of_unique]
  · have htext : Name.text? (.str t) = some t := rfl
    simp only [htext, Json.alike_str_right, Name.text?_eq_some, decide_eq_true_eq, and_assoc]
  · intro a ha b hb hpa hpb
    rw [Json.alike_str_right] at hpa hpb
    exact id_injective hids ha hb (hpa.trans hpb.symm)
  · intro a ha b hb hpa hpb
    simp only [hself, Name.text?_eq_some, decide_eq_true_eq] at hpa hpb
    exact id_injective hids ha hb (hpa.1.trans hpb.1.symm)

omit hids

end Answers

section Branches

/-- The conditions that a node depends on by edges of a list, with those edges. -/
def childBranches (ns : List Node) (es : List Edge) (k : String) : List Branch :=
  es.filterMap fun e =>
    if Name.text? e.source = some k ∧ e.relation = .dependsOn then
      (ns.find? fun m => decide (Name.text? m.id = Name.text? e.target ∧ m.kind = .condition)).map
        fun m => ⟨m, e⟩
    else none

theorem placed_eq_ok {place : Branch → Int} {bs : List Branch}
    (h : ∀ b ∈ bs, b.edge.position = .ok (place b)) :
    placed bs = .ok (bs.map fun b => (place b, b)) := by
  induction bs with
  | nil => rfl
  | cons b r ih =>
      obtain ⟨hb, hr⟩ := List.forall_mem_cons.mp h
      rw [placed, hb, Attempt.ok_bind, ih hr]
      rfl

theorem exists_position_of_placed {bs : List Branch} {ps : List (Int × Branch)}
    (h : placed bs = .ok ps) : ∀ b ∈ bs, ∃ i, b.edge.position = .ok i := by
  induction bs generalizing ps with
  | nil => exact List.forall_mem_nil _
  | cons b r ih =>
      obtain ⟨i, hi, h⟩ := Attempt.bind_eq_ok.mp h
      obtain ⟨rest, hrest, -⟩ := Attempt.bind_eq_ok.mp h
      exact List.forall_mem_cons.mpr ⟨⟨i, hi⟩, ih hrest⟩

/-- Branches are arranged by merging them by their positions. -/
theorem arrange_eq_ok {place : Branch → Int} {bs : List Branch}
    (h : ∀ b ∈ bs, b.edge.position = .ok (place b)) :
    arrange bs = .ok (bs.mergeSort fun a b => decide (place a ≤ place b)) := by
  rw [arrange, placed_eq_ok h, Attempt.map_ok]
  have hmap := List.map_mergeSort (r := fun a b => decide (place a ≤ place b))
    (s := fun a b : Int × Branch => decide (a.1 ≤ b.1)) (f := fun b => (place b, b)) (l := bs)
    fun a _ b _ => rfl
  rw [← hmap, List.map_map]
  simp [Function.comp_def]

/-- The conditions below a node are those that it depends on, arranged. -/
theorem ruleChildren_eq_arrange {g : PolicyGraph} (hids : (g.nodes.map Node.id).Nodup)
    (hends : ∀ e ∈ g.edges, ∃ t, e.target = .str t) {k : String}
    (hk : g.hasNode (.str k) = true) :
    g.ruleChildren (.str k) = arrange (childBranches g.nodes g.edges k) := by
  rw [ruleChildren, outEdges_eq_filter hk, Attempt.ok_bind, List.filterMap_filter, childBranches]
  refine congrArg arrange (List.filterMap_congr fun e he => ?_)
  obtain ⟨t, ht⟩ := hends e he
  have hasked : IsAskedFor (some .dependsOn) e ↔ e.relation = .dependsOn := by
    simp [IsAskedFor, eq_comm]
  simp only [targetOf?_eq_find? hids ht, hasked, decide_eq_true_eq]

end Branches

section Graphs

/-- A graph of nodes and edges that answers as filters of them do. -/
structure IsIndexed (ns : List Node) (es : List Edge) (g : PolicyGraph) : Prop where
  nodes : g.nodes = ns
  edges : g.edges = es
  outEdges : ∀ k, Json.str k ∈ ns.map Node.id → ∀ r, g.outEdges (.str k) r =
    .ok (es.filter fun e => decide (Name.text? e.source = some k ∧ IsAskedFor r e))
  inEdges : ∀ k, Json.str k ∈ ns.map Node.id → ∀ r, g.inEdges (.str k) r =
    .ok (es.filter fun e => decide (Name.text? e.target = some k ∧ IsAskedFor r e))
  leaving : ∃ groups, ns.mapM (fun n => g.outEdges n.id none) = .ok groups ∧ groups.flatten.Perm es
  entering : ∃ groups, ns.mapM (fun n => g.inEdges n.id none) = .ok groups ∧ groups.flatten.Perm es
  conditions : ∀ x, g.conditionsOn (.str x) =
    ns.filter fun n => decide (n.isLeaf = true ∧ Name.text? n.subject = some x)
  clauses : ∀ c, g.nodesOfClause (.str c) =
    ns.filter fun n => decide (n.kind = .clause ∧ Name.text? n.ownClause = some c ∨
      n.kind = .condition ∧ Name.text? n.citedClause = some c)
  positions : ∀ k i, g.position? (.str k) = some i ↔ ∃ n, ns[i]? = some n ∧ n.id = .str k
  children : ∀ k, Json.str k ∈ ns.map Node.id →
    (∀ place : Branch → Int, (∀ b ∈ childBranches ns es k, b.edge.position = .ok (place b)) →
      ∃ bs, g.ruleChildren (.str k) = .ok bs ∧ IsStableSort place (childBranches ns es k) bs) ∧
    ((∃ bs, g.ruleChildren (.str k) = .ok bs) →
      ∀ b ∈ childBranches ns es k, ∃ i, b.edge.position = .ok i)

variable {ns : List Node} {es : List Edge}

/-- The edges of one node after the other, by one of their ends, are all edges. -/
theorem exists_groups (h : AreTextual ns es) (hids : (ns.map Node.id).Nodup)
    (edgesOf : Name → Except Fault (List Edge)) (endOf : Edge → Name)
    (hends : ∀ e ∈ es, endOf e ∈ ns.map Node.id)
    (hedges : ∀ k, Json.str k ∈ ns.map Node.id →
      edgesOf (.str k) = .ok (es.filter fun e => decide (Name.text? (endOf e) = some k))) :
    ∃ groups, ns.mapM (fun n => edgesOf n.id) = .ok groups ∧ groups.flatten.Perm es := by
  have hgroup : ∀ n ∈ ns, edgesOf n.id =
      .ok (es.filter fun e => decide (Name.text? (endOf e) = Name.text? n.id)) := by
    intro n hn
    obtain ⟨k, hk⟩ := h.ids n hn
    rw [hk, hedges k (hk ▸ List.mem_map_of_mem hn)]
    rfl
  refine ⟨_, Attempt.mapM_eq_ok_map hgroup, ?_⟩
  have hkeys : ((ns.map Node.id).map Name.text?).Nodup := by
    refine (List.nodup_map_iff_inj_on hids).mpr fun a ha b hb hab => ?_
    obtain ⟨m, hm, rfl⟩ := List.mem_map.mp ha
    obtain ⟨k, hk⟩ := h.ids m hm
    rw [hk, eq_comm] at hab ⊢
    exact Name.text?_eq_some.mp hab
  have hkeyed : ∀ e ∈ es, Name.text? (endOf e) ∈ (ns.map Node.id).map Name.text? :=
    fun e he => List.mem_map_of_mem (hends e he)
  have hall := flatMap_filter_perm hkeys hkeyed
  rwa [List.map_map, List.flatMap_map] at hall

theorem hasNode_of_mem {g : PolicyGraph} {k : String} (hk : Json.str k ∈ g.nodes.map Node.id) :
    g.hasNode (.str k) = true := by
  obtain ⟨n, hn, hid⟩ := List.mem_map.mp hk
  rw [hasNode, node?, List.find?_isSome]
  exact ⟨n, hn, Json.alike_str_right.mpr hid⟩

/-- A graph of textual nodes and edges answers as filters of them do. -/
theorem AreTextual.isIndexed {g : PolicyGraph} (h : AreTextual g.nodes g.edges)
    (hids : (g.nodes.map Node.id).Nodup)
    (hends : ∀ e ∈ g.edges, e.source ∈ g.nodes.map Node.id ∧ e.target ∈ g.nodes.map Node.id) :
    IsIndexed g.nodes g.edges g := by
  have htargets : ∀ e ∈ g.edges, ∃ t, e.target = .str t := by
    intro e he
    obtain ⟨n, hn, hid⟩ := List.mem_map.mp (hends e he).2
    exact hid ▸ h.ids n hn
  refine ⟨rfl, rfl, fun k hk r => outEdges_eq_filter (hasNode_of_mem hk) r,
    fun k hk r => inEdges_eq_filter (hasNode_of_mem hk) r, ?_, ?_, conditionsOn_eq_filter g,
    nodesOfClause_eq_filter g, fun k i => position?_str_iff hids, fun k hk => ?_⟩
  · refine exists_groups h hids (g.outEdges · none) Edge.source (fun e he => (hends e he).1) ?_
    intro k hk
    simpa [IsAskedFor] using outEdges_eq_filter (hasNode_of_mem hk) none
  · refine exists_groups h hids (g.inEdges · none) Edge.target (fun e he => (hends e he).2) ?_
    intro k hk
    simpa [IsAskedFor] using inEdges_eq_filter (hasNode_of_mem hk) none
  · rw [ruleChildren_eq_arrange hids htargets (hasNode_of_mem hk)]
    refine ⟨fun place hplace => ⟨_, arrange_eq_ok hplace, isStableSort_mergeSort place _⟩, ?_⟩
    rintro ⟨bs, hbs⟩
    obtain ⟨ps, hps, -⟩ := Attempt.map_eq_ok.mp hbs
    exact exists_position_of_placed hps

/-- Where nodes and edges are textual, a graph is refused exactly if two nodes have one identifier
or an edge has an end that is no node; all other graphs answer as filters of their nodes and edges
do. -/
theorem make_refused_or_indexed (h : AreTextual ns es) (metadata : Entries Json) :
    ((∃ f, make ns es metadata = .error f ∧ IsInvalidGraph f) ↔
      ¬ (ns.map Node.id).Nodup ∨
        ∃ e ∈ es, e.source ∉ ns.map Node.id ∨ e.target ∉ ns.map Node.id) ∧
    ((ns.map Node.id).Nodup →
      (∀ e ∈ es, e.source ∈ ns.map Node.id ∧ e.target ∈ ns.map Node.id) →
        ∃ g, make ns es metadata = .ok g ∧ IsIndexed ns es g) := by
  have hiff := h.fault?_eq_none_iff
  rw [make]
  cases hf : fault? ns es with
  | some f =>
      have hnot : ¬ ((ns.map Node.id).Nodup ∧
          ∀ e ∈ es, e.source ∈ ns.map Node.id ∧ e.target ∈ ns.map Node.id) := by
        rw [← hiff, hf]
        nofun
      constructor
      · refine ⟨fun _ => ?_, fun _ => ⟨f, rfl, h.isInvalidGraph hf⟩⟩
        by_contra hnone
        push Not at hnone
        exact hnot hnone
      · exact fun hids hends => absurd ⟨hids, hends⟩ hnot
  | none =>
      obtain ⟨hids, hends⟩ := hiff.mp hf
      constructor
      · constructor
        · rintro ⟨f, hmake, -⟩
          cases hmake
        · rintro (hnot | ⟨e, he, hsource | htarget⟩)
          · exact absurd hids hnot
          · exact absurd (hends e he).1 hsource
          · exact absurd (hends e he).2 htarget
      · exact fun _ _ => ⟨_, rfl, AreTextual.isIndexed
          (g := ⟨ns, es, metadata, Index.of ns es, rfl⟩) h hids hends⟩

/-- A policy with a clause and two conditions. -/
def looped : List Node := [
  ⟨.str "policy:p", .policy, [(.str "policy_id", .json (.str "p"))], Number.one⟩,
  ⟨.str "clause:c", .clause, [(.str "clause_id", .json (.str "c"))], Number.one⟩,
  ⟨.str "condition:a", .condition,
    [(.str "variable", .json (.str "age")), (.str "clause_reference", .json (.str "c"))],
    Number.one⟩,
  ⟨.str "condition:b", .condition,
    [(.str "variable", .json (.str "age")), (.str "clause_reference", .json (.str "c"))],
    Number.one⟩]

/-- Edges side by side, with one position twice, and one that leads back. -/
def loops : List Edge := [
  ⟨.str "e1", .str "policy:p", .str "condition:b", .dependsOn, [(.str "position", .int 1)]⟩,
  ⟨.str "e2", .str "policy:p", .str "condition:a", .dependsOn, [(.str "position", .int 1)]⟩,
  ⟨.str "e3", .str "policy:p", .str "condition:a", .dependsOn, []⟩,
  ⟨.str "e4", .str "policy:p", .str "policy:p", .requires, []⟩]

/-- In the example two edges that run side by side enter one condition. -/
theorem make_refused_or_indexed_loops : AreTextual looped loops ∧
    ∃ g, make looped loops [] = .ok g ∧ IsIndexed looped loops g ∧
      g.inEdges (.str "condition:a") none = .ok ((loops.drop 1).take 2) := by
  have hlookup : ∀ n ∈ looped, (n.subject?.all fun x => (Name.text? x).isSome) = true ∧
      (n.clause?.all fun c => (Name.text? c).isSome) = true := by decide
  have htextual : AreTextual looped loops := by
    refine ⟨by simp [looped], fun n hn x hx => ?_, fun n hn c hc => ?_, ?_, ?_⟩
    · have htext := (hlookup n hn).1
      rw [hx] at htext
      obtain ⟨k, hk⟩ := Option.isSome_iff_exists.mp htext
      exact ⟨k, Name.text?_eq_some.mp hk⟩
    · have htext := (hlookup n hn).2
      rw [hc] at htext
      obtain ⟨k, hk⟩ := Option.isSome_iff_exists.mp htext
      exact ⟨k, Name.text?_eq_some.mp hk⟩
    · simp [loops, Name.isUsable, Json.isScalar]
    · simp [loops, Name.isUsable, Json.isScalar]
  obtain ⟨g, hg, hindexed⟩ := (make_refused_or_indexed htextual []).2
    (by simp [looped]) (by simp [loops, looped])
  refine ⟨htextual, g, hg, hindexed, ?_⟩
  rw [hindexed.inEdges "condition:a" (by simp [looped])]
  rfl

end Graphs

end PolicyGraph
end Eligibility
