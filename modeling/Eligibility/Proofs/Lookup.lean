import Mathlib.Data.List.Nodup
import Eligibility.PolicyGraph
import Eligibility.Proofs.Attempt
/-!
# Lookups by texts

**Index.**  The index of a graph groups edges and nodes by names.  Under a text it
holds exactly the items of that name, in the order of the graph: a lookup is a
filter over the lists that the graph was made of.

**Results.**
* `alike_str_right`: only a text is like a text, and only its equal.
* `members_ofList`: the group of a text.
* `outEdges_eq`: the edges that leave a node.
* `node?_eq_some`: the node of a text.
-/

namespace Eligibility

namespace Json

/-- Only a text is like a text, and only its equal. -/
theorem alike_str_right {j : Json} {s : String} : j.alike (.str s) = true ↔ j = .str s := by
  cases j <;> simp [alike, alikeScalar, sameScalar]

theorem alike_str_left {j : Json} {s : String} : (Json.str s).alike j = true ↔ j = .str s := by
  cases j <;> simp [alike, alikeScalar, sameScalar, eq_comm]

theorem strs_inj {xs ys : List String} (h : xs.map Json.str = ys.map .str) : xs = ys :=
  List.map_injective_iff.mpr (fun _ _ => Json.str.inj) h

theorem among_strs {s : String} {xs : List String} :
    among (.str s) (xs.map .str) = decide (s ∈ xs) := by
  induction xs with
  | nil => simp [among]
  | cons x r ih =>
      have h : among (.str s) (r.map .str) = decide (s ∈ r) := ih
      simp only [among, List.map_cons, List.any_cons, alike_str, List.mem_cons] at h ⊢
      rw [h]
      exact (Bool.decide_or _ _).symm

/-- Texts without repetition. -/
theorem exists_distinct_strs (xs : List String) :
    ∃ ys : List String, distinct (xs.map .str) = ys.map .str ∧ ys.Nodup ∧ ∀ y, y ∈ ys ↔ y ∈ xs := by
  have hfold : ∀ acc : List String, acc.Nodup → ∃ ys : List String,
      (xs.map Json.str).foldl (fun acc j => if among j acc then acc else acc ++ [j])
        (acc.map .str) = ys.map .str ∧ ys.Nodup ∧ ∀ y, y ∈ ys ↔ y ∈ acc ∨ y ∈ xs := by
    induction xs with
    | nil => exact fun acc hacc => ⟨acc, rfl, hacc, by simp⟩
    | cons x r ih =>
        intro acc hacc
        rw [List.map_cons, List.foldl_cons, among_strs]
        by_cases hx : x ∈ acc
        · obtain ⟨ys, hys, hnodup, hmem⟩ := ih acc hacc
          refine ⟨ys, by rw [if_pos (by simpa using hx), hys], hnodup, fun y => ?_⟩
          rw [hmem, List.mem_cons]
          constructor
          · rintro (hy | hy) <;> simp [hy]
          · rintro (hy | rfl | hy) <;> simp [*]
        · obtain ⟨ys, hys, hnodup, hmem⟩ :=
            ih (acc ++ [x]) (List.Nodup.append hacc (List.nodup_singleton x) (by simpa using hx))
          refine ⟨ys, ?_, hnodup, fun y => ?_⟩
          · rw [if_neg (by simpa using hx), ← hys, List.map_append]
            rfl
          · rw [hmem, List.mem_append, List.mem_singleton, List.mem_cons, or_assoc]
  obtain ⟨ys, hys, hnodup, hmem⟩ := hfold [] List.nodup_nil
  exact ⟨ys, hys, hnodup, by simpa using hmem⟩

end Json

namespace Name

theorem exists_strs {ns : List Name} (h : ∀ n ∈ ns, ∃ s, n = .str s) :
    ∃ xs : List String, ns = xs.map .str := by
  induction ns with
  | nil => exact ⟨[], rfl⟩
  | cons n r ih =>
      obtain ⟨⟨x, rfl⟩, hr⟩ := List.forall_mem_cons.mp h
      obtain ⟨xs, rfl⟩ := ih hr
      exact ⟨x :: xs, rfl⟩

theorem eq_strs_of_texts? {ns : List Name} {xs : List String} (h : texts? ns = some xs) :
    ns = xs.map .str := by
  induction ns generalizing xs with
  | nil => exact Option.some.inj h ▸ rfl
  | cons n r ih =>
      cases n with
      | str s =>
          obtain ⟨ys, hys, rfl⟩ := Option.map_eq_some_iff.mp h
          rw [ih hys, List.map_cons]
      | _ => cases h

/-- Texts have an order. -/
theorem sorted_strs (xs : List String) :
    Fault.sorted (xs.map .str) = .ok ((sortTexts xs).map .str) := by
  rw [Fault.sorted, sort?_strs]

theorem sortTexts_perm (xs : List String) : (sortTexts xs).Perm xs := List.mergeSort_perm _ _

theorem sortTexts_pairwise (xs : List String) : (sortTexts xs).Pairwise (· ≤ ·) := by
  have htrans : ∀ a b c : String, decide (a ≤ b) = true → decide (b ≤ c) = true →
      decide (a ≤ c) = true :=
    fun _ _ _ hab hbc => by simpa using String.le_trans (by simpa using hab) (by simpa using hbc)
  have htotal : ∀ a b : String, (decide (a ≤ b) || decide (b ≤ a)) = true :=
    fun a b => by simpa using String.le_total a b
  simpa [sortTexts] using List.pairwise_mergeSort htrans htotal xs

/-- The order of texts does not depend on how they are given. -/
theorem sortTexts_eq_of_perm {xs ys : List String} (h : xs.Perm ys) : sortTexts xs = sortTexts ys :=
  (((sortTexts_perm xs).trans h).trans (sortTexts_perm ys).symm).eq_of_pairwise
    (fun _ _ _ _ => String.le_antisymm) (sortTexts_pairwise xs) (sortTexts_pairwise ys)

/-- Two texts have an order. -/
theorem exists_sorted_pair (x y : String) :
    ∃ u v, Fault.sorted [.str x, .str y] = .ok [.str u, .str v] ∧ [u, v].Perm [x, y] := by
  obtain ⟨u, v, huv⟩ : ∃ u v, sortTexts [x, y] = [u, v] :=
    List.length_eq_two.mp (sortTexts_perm [x, y]).length_eq
  have hsorted := sorted_strs [x, y]
  rw [huv] at hsorted
  exact ⟨u, v, hsorted, huv ▸ sortTexts_perm [x, y]⟩

/-- Texts have an order when each is taken once. -/
theorem exists_sorted_distinct (xs : List String) :
    ∃ ys : List String, Fault.sorted (Json.distinct (xs.map .str)) = .ok (ys.map .str) ∧
      ys.Nodup ∧ (∀ y, y ∈ ys ↔ y ∈ xs) ∧ sortTexts ys = ys := by
  obtain ⟨ys, hys, hnodup, hmem⟩ := Json.exists_distinct_strs xs
  refine ⟨sortTexts ys, by rw [hys, sorted_strs], ?_, fun y => ?_, ?_⟩
  · exact (sortTexts_perm ys).nodup_iff.mpr hnodup
  · rw [(sortTexts_perm ys).mem_iff, hmem]
  · exact sortTexts_eq_of_perm (sortTexts_perm ys)

end Name

namespace Grouping

variable {α : Type}

theorem members_add (n : Name) (x : α) (k : String) (gs : Grouping α) :
    (add n x gs).members (.str k) =
      if n.alike (.str k) then gs.members (.str k) ++ [x] else gs.members (.str k) := by
  induction gs with
  | nil => simp [add, members_cons, members_nil]
  | cons g r ih =>
      obtain ⟨n', xs⟩ := g
      by_cases h : n'.alike n
      · simp only [add, h, if_true, members_cons]
        by_cases hk : n.alike (.str k)
        · have hn := Json.alike_str_right.mp hk
          subst hn
          simp [h]
        · have hn' : ¬ n'.alike (.str k) := by
            intro h'
            have := Json.alike_str_right.mp h'
            subst this
            exact hk (by cases n <;> simp_all [Json.alike, Json.alikeScalar, Json.sameScalar])
          simp [hk, hn']
      · simp only [add, h, Bool.false_eq_true, if_false, members_cons, ih]
        by_cases hk : n.alike (.str k)
        · have hn' : ¬ n'.alike (.str k) := by
            rw [Json.alike_str_right.mp hk] at h
            exact h
          simp [hk, hn']
        · simp [hk]

/-- Whether groups hold items of a list under names of theirs, in their order. -/
def AreOf (name : α → Option Name) (xs : List α) (gs : Grouping α) : Prop :=
  ∀ q ∈ gs, (∃ x ∈ xs, name x = some q.1) ∧ q.2.Sublist xs ∧
    ∀ y ∈ q.2, ∃ n, name y = some n ∧ (q.1 = n ∨ q.1.alike n = true)

section Building

variable {name : α → Option Name} {xs : List α} {gs : Grouping α} {x : α}

theorem AreOf.skip (h : AreOf name xs gs) (x : α) : AreOf name (xs ++ [x]) gs := by
  intro q hq
  obtain ⟨⟨y, hy, hname⟩, hsub, hall⟩ := h q hq
  exact ⟨⟨y, List.mem_append_left _ hy, hname⟩, hsub.trans (List.sublist_append_left _ _), hall⟩

theorem AreOf.add (h : AreOf name xs gs) {n : Name} (hx : name x = some n) :
    AreOf name (xs ++ [x]) (gs.add n x) := by
  induction gs with
  | nil =>
      intro q hq
      obtain rfl := List.mem_singleton.mp hq
      refine ⟨⟨x, by simp, hx⟩, List.sublist_append_right _ _, fun y hy => ?_⟩
      exact ⟨n, by rwa [List.mem_singleton.mp hy], .inl rfl⟩
  | cons g r ih =>
      obtain ⟨hg, hr⟩ := List.forall_mem_cons.mp h
      obtain ⟨⟨y, hy, hname⟩, hsub, hall⟩ := hg
      have hfirst : ∃ y ∈ xs ++ [x], name y = some g.1 := ⟨y, List.mem_append_left _ hy, hname⟩
      unfold Grouping.add
      split
      · next halike =>
        refine List.forall_mem_cons.mpr ⟨⟨hfirst, hsub.append_right [x], fun z hz => ?_⟩,
          AreOf.skip hr x⟩
        rcases List.mem_append.mp hz with hz | hz
        · exact hall z hz
        · exact ⟨n, by rwa [List.mem_singleton.mp hz], .inr halike⟩
      · refine List.forall_mem_cons.mpr ⟨⟨hfirst, ?_, hall⟩, ih hr⟩
        exact hsub.trans (List.sublist_append_left _ _)

/-- One step of grouping: an item goes to the group of its name, if it has one. -/
def step (name : α → Option Name) (gs : Grouping α) (x : α) : Grouping α :=
  match name x with
  | some k => add k x gs
  | none => gs

theorem ofList_eq_foldl (name : α → Option Name) (xs : List α) :
    ofList name xs = xs.foldl (step name) [] := rfl

theorem AreOf.step (h : AreOf name xs gs) (x : α) :
    AreOf name (xs ++ [x]) (gs.step name x) := by
  unfold Grouping.step
  cases hx : name x with
  | none => exact h.skip x
  | some n => exact h.add hx

/-- The groups of a list are of it. -/
theorem areOf_ofList (name : α → Option Name) (xs : List α) : AreOf name xs (ofList name xs) := by
  have hfold : ∀ (r seen : List α) (gs : Grouping α), AreOf name seen gs →
      AreOf name (seen ++ r) (r.foldl (Grouping.step name) gs) := by
    intro r
    induction r with
    | nil => exact fun seen gs h => by simpa using h
    | cons x r ih =>
        intro seen gs h
        rw [List.foldl_cons, List.append_cons]
        exact ih _ _ (h.step x)
  rw [ofList_eq_foldl]
  exact hfold xs [] [] (List.forall_mem_nil _)

end Building

/-- What is looked up in groups stands in one of them. -/
theorem mem_of_mem_members {gs : Grouping α} {k : Name} {x : α} (hx : x ∈ gs.members k) :
    ∃ q ∈ gs, x ∈ q.2 := by
  unfold members at hx
  split at hx
  · next q hq => exact ⟨q, List.mem_of_find?_eq_some hq, hx⟩
  · simp at hx

/-- A text under which something is looked up is the name of a group. -/
theorem mem_names_of_mem_members {gs : Grouping α} {k : String} {x : α}
    (hx : x ∈ gs.members (.str k)) : .str k ∈ gs.names := by
  unfold members at hx
  split at hx
  · next q hq =>
    have halike := List.find?_some hq
    rw [← Json.alike_str_right.mp halike]
    exact List.mem_map_of_mem (List.mem_of_find?_eq_some hq)
  · simp at hx

/-- The group of a text holds the items of that name, in their order. -/
theorem members_ofList (name : α → Option Name) (xs : List α) (k : String) :
    (ofList name xs).members (.str k) =
      xs.filter fun x => (name x).any fun n => n.alike (.str k) := by
  have h : ∀ gs : Grouping α, (xs.foldl (step name) gs).members (.str k) =
      gs.members (.str k) ++ xs.filter fun x => (name x).any fun n => n.alike (.str k) := by
    induction xs with
    | nil => simp
    | cons x r ih =>
        intro gs
        rw [List.foldl_cons, ih, step]
        cases hx : name x with
        | none => simp [hx]
        | some n =>
            simp only [members_add]
            by_cases hk : n.alike (.str k) <;> simp [hx, hk]
  rw [ofList_eq_foldl, h, members_nil, List.nil_append]

end Grouping

namespace PolicyGraph

variable {g : PolicyGraph}

theorem outgoing_members (g : PolicyGraph) (k : String) :
    g.index.outgoing.members (.str k) = g.edges.filter fun e => e.source.alike (.str k) := by
  rw [g.indexed]
  simp [Index.of, Grouping.members_ofList]

theorem incoming_members (g : PolicyGraph) (k : String) :
    g.index.incoming.members (.str k) = g.edges.filter fun e => e.target.alike (.str k) := by
  rw [g.indexed]
  simp [Index.of, Grouping.members_ofList]

theorem mem_conditionsOn (subject : Name) {n : Node} (hn : n ∈ g.conditionsOn subject) :
    n ∈ g.nodes := by
  obtain ⟨q, hq, hnq⟩ := Grouping.mem_of_mem_members hn
  rw [g.indexed] at hq
  exact (Grouping.areOf_ofList _ _ q hq).2.1.subset hnq

/-- The conditions on a variable are the comparisons with it. -/
theorem mem_conditionsOn_str {x : String} {n : Node} :
    n ∈ g.conditionsOn (.str x) ↔ n ∈ g.nodes ∧ n.isLeaf = true ∧ n.subject = .str x := by
  rw [conditionsOn, g.indexed]
  simp only [Index.of, Grouping.members_ofList, List.mem_filter, Node.subject?]
  refine and_congr_right fun _ => ?_
  split
  · next hleaf => simp [hleaf, Json.alike_str_right]
  · next hleaf => simp [hleaf]

theorem node_eq_ok {k : Name} {n : Node} : g.node k = .ok n ↔ g.node? k = some n := by
  unfold node
  cases g.node? k <;> simp

/-- The edges of a relation that leave a node. -/
theorem outEdges_eq {k : String} (h : g.hasNode (.str k) = true) (r : Relation) :
    g.outEdges (.str k) (some r) =
      .ok (g.edges.filter fun e => decide (e.relation = r) && e.source.alike (.str k)) := by
  obtain ⟨n, hn⟩ := Option.isSome_iff_exists.mp h
  rw [outEdges, node_eq_ok.mpr hn, Attempt.map_ok, outgoing_members]
  simp [ofRelation, List.filter_filter]

/-- The node of a text, where no other node has that text. -/
theorem node?_eq_some {k : String} {n : Node} (hn : n ∈ g.nodes) (hk : n.id = .str k)
    (unique : ∀ m ∈ g.nodes, m.id = .str k → m = n) : g.node? (.str k) = some n := by
  cases h : g.node? (.str k) with
  | none =>
      have := List.find?_eq_none.mp h n hn
      simp [hk] at this
  | some m =>
      have hm := List.mem_of_find?_eq_some h
      have hid := List.find?_some h
      rw [unique m hm (Json.alike_str_right.mp hid)]

theorem node?_spec {k : String} {n : Node} (h : g.node? (.str k) = some n) :
    n ∈ g.nodes ∧ n.id = .str k :=
  have hid : n.id.alike (.str k) = true := List.find?_some (p := fun m : Node => m.id.alike _) h
  ⟨List.mem_of_find?_eq_some h, Json.alike_str_right.mp hid⟩

end PolicyGraph
end Eligibility
