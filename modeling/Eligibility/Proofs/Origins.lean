import Eligibility.Conflict.Detection
import Eligibility.Proofs.Candidates
/-!
# Where candidates come from

**Nodes.**  Whatever a graph looks like, composed or read from a file, a pass that gives
candidates gives those of its own kind, and they are about nodes of the graph: the literals of
paths and requirements, the conditions of ranges and the members of cycles all come from there.

**Results.**
* `isOver_of_candidates`: the kind and the nodes of a candidate.
-/

namespace Eligibility

/-- A candidate of a pass that is about nodes of a graph. -/
structure Candidate.IsOver (g : PolicyGraph) (k : ConflictKind) (c : Candidate) : Prop where
  kind : c.kind = k
  nodes : ∀ n ∈ c.nodes, ∃ m ∈ g.nodes, m.id = n

namespace Sorting

variable {α ε : Type} {before : Comparison ε α}

theorem subset_of_insert {xs ys : List α} {x : α} (h : insert before xs x = .ok ys) :
    ys ⊆ x :: xs := by
  obtain ⟨k, -, rfl⟩ := Attempt.map_eq_ok.mp h
  refine List.append_subset.mpr ⟨?_, List.cons_subset_cons x (List.drop_subset k xs)⟩
  exact List.Subset.trans (List.take_subset k xs) (List.subset_cons_self x xs)

/-- Sorting gives items of the list. -/
theorem subset_of_sort {xs ys : List α} (h : sort before xs = .ok ys) : ys ⊆ xs := by
  match xs, h with
  | [], h => exact Except.ok.inj h ▸ List.Subset.refl _
  | [x], h => exact Except.ok.inj h ▸ List.Subset.refl _
  | x :: y :: r, h =>
      obtain ⟨falling, -, h⟩ := Attempt.bind_eq_ok.mp h
      obtain ⟨n, -, h⟩ := Attempt.bind_eq_ok.mp h
      have hrun : x :: (y :: r).take n ⊆ x :: y :: r :=
        List.cons_subset_cons x (List.take_subset n (y :: r))
      refine Attempt.foldlM_keeps (P := fun zs => zs ⊆ x :: y :: r) h ?_ fun zs hzs z hz zs' h => ?_
      · split
        · exact fun z hz => hrun (List.mem_reverse.mp hz)
        · exact hrun
      · exact List.Subset.trans (subset_of_insert h) (List.cons_subset.mpr
          ⟨List.mem_cons_of_mem x (List.mem_of_mem_drop hz), hzs⟩)

end Sorting

/-- Names in their order are those that were given. -/
theorem Fault.subset_of_sorted {ns ms : List Name} (h : Fault.sorted ns = .ok ms) : ms ⊆ ns := by
  unfold Fault.sorted at h
  split at h
  · next ms' hms =>
    obtain rfl := Except.ok.inj h
    unfold Name.sort? at hms
    split at hms
    · next xs hxs =>
      obtain rfl := Option.some.inj hms
      rw [Name.eq_strs_of_texts? hxs]
      exact ((Name.sortTexts_perm xs).map _).subset
    · cases hsort : Sorting.sort Name.compare ns with
      | error e => rw [hsort] at hms; cases hms
      | ok zs =>
          rw [hsort] at hms
          exact Option.some.inj hms ▸ Sorting.subset_of_sort hsort
  · cases h

namespace Candidate

variable {g : PolicyGraph} {k : ConflictKind} {c : Candidate}

/-- A candidate about the nodes of two literals is over a graph that has these. -/
theorem isOver_of_pair {a b : Literal} (hkind : c.kind = k)
    (hnodes : ∀ n ∈ c.nodes, n = a.node.id ∨ n = b.node.id) (ha : a.node ∈ g.nodes)
    (hb : b.node ∈ g.nodes) : c.IsOver g k := by
  refine ⟨hkind, fun n hn => ?_⟩
  rcases hnodes n hn with rfl | rfl
  · exact ⟨_, ha, rfl⟩
  · exact ⟨_, hb, rfl⟩

end Candidate

namespace PolicyGraph

variable {g : PolicyGraph}

section Contradictions

theorem isOver_of_contradictionStep {policy : Name} {leaf other : Literal} {s t : PairSearch}
    (hleaf : leaf.node ∈ g.nodes) (hother : other.node ∈ g.nodes)
    (hs : ∀ c ∈ s.found, c.IsOver g .contradiction)
    (h : contradictionStep policy leaf s other = .ok t) :
    ∀ c ∈ t.found, c.IsOver g .contradiction := by
  obtain ⟨ns, hns, h⟩ := Attempt.bind_eq_ok.mp h
  split at h
  swap
  · exact Except.ok.inj h ▸ hs
  next a b =>
  have hab : ∀ n ∈ [a, b], n = leaf.node.id ∨ n = other.node.id := fun n hn =>
    List.mem_pair.mp (Fault.subset_of_sorted hns hn)
  split at h
  · exact Except.ok.inj h ▸ hs
  obtain ⟨x, -, h⟩ := Attempt.bind_eq_ok.mp h
  obtain ⟨y, -, h⟩ := Attempt.bind_eq_ok.mp h
  obtain ⟨answer, -, h⟩ := Attempt.bind_eq_ok.mp h
  split at h
  · exact Except.ok.inj h ▸ hs
  obtain ⟨c, hc, h⟩ := Attempt.bind_eq_ok.mp h
  obtain rfl := Except.ok.inj h
  obtain ⟨_, -, hc⟩ := Attempt.bind_eq_ok.mp hc
  obtain ⟨_, -, hc⟩ := Attempt.bind_eq_ok.mp hc
  obtain ⟨_, -, hc⟩ := Attempt.bind_eq_ok.mp hc
  obtain ⟨_, -, hc⟩ := Attempt.bind_eq_ok.mp hc
  obtain rfl := Except.ok.inj hc
  exact List.forall_mem_append.mpr ⟨hs, List.forall_mem_singleton.mpr
    (Candidate.isOver_of_pair rfl hab hleaf hother)⟩

/-- Candidates of contradictions are over the graph. -/
theorem isOver_of_contradictions {cs : List Candidate} (h : g.contradictions = .ok cs) :
    ∀ c ∈ cs, c.IsOver g .contradiction := by
  obtain ⟨s, hs, rfl⟩ := Attempt.map_eq_ok.mp h
  refine Attempt.foldlM_keeps (P := fun s : PairSearch => ∀ c ∈ s.found, c.IsOver g _) hs
    (List.forall_mem_nil _) fun s hs policy _ t ht => ?_
  obtain ⟨ps, hps, ht⟩ := Attempt.bind_eq_ok.mp ht
  refine Attempt.foldlM_keeps (P := fun s : PairSearch => ∀ c ∈ s.found, c.IsOver g _) ht hs
    fun s hs p hp t ht => ?_
  obtain ⟨hleaf, hcontext⟩ := List.forall_mem_cons.mp (isOn_of_paths hps p hp)
  exact Attempt.foldlM_keeps (P := fun s : PairSearch => ∀ c ∈ s.found, c.IsOver g _) ht hs
    fun s hs l hl t ht =>
      isOver_of_contradictionStep hleaf.node (hcontext l (List.mem_of_mem_filter hl)).node hs ht

end Contradictions

section Exclusions

theorem mem_of_demandTable {table : Grouping Demand} (h : g.demandTable = .ok table) (n : Name) :
    ∀ d ∈ table.members n, d.literal.node ∈ g.nodes := by
  obtain ⟨parts, hparts, h⟩ := Attempt.bind_eq_ok.mp h
  obtain rfl := Except.ok.inj h
  have hall : ∀ d ∈ parts.flatten, d.literal.node ∈ g.nodes :=
    Attempt.mapM_flatten_keeps hparts fun policy _ ds hds => by
      obtain ⟨ls, hls, rfl⟩ := Attempt.map_eq_ok.mp hds
      exact List.forall_mem_map.mpr fun l hl => (isOn_of_requirements hls l hl).node
  intro d hd
  obtain ⟨q, hq, hdq⟩ := Grouping.mem_of_mem_members hd
  exact hall d ((Grouping.areOf_ofList _ _ q hq).2.1.subset hdq)

theorem isOver_of_exclusionPair {subject : Name} {a b : Demand} {cs : List Candidate}
    (ha : a.literal.node ∈ g.nodes) (hb : b.literal.node ∈ g.nodes)
    (h : g.exclusionPair subject a b = .ok cs) : ∀ c ∈ cs, c.IsOver g .exclusion := by
  rw [exclusionPair] at h
  split at h
  · obtain rfl := Except.ok.inj h
    exact List.forall_mem_nil _
  obtain ⟨_, -, h⟩ := Attempt.bind_eq_ok.mp h
  obtain ⟨_, -, h⟩ := Attempt.bind_eq_ok.mp h
  obtain ⟨answer, -, h⟩ := Attempt.bind_eq_ok.mp h
  split at h
  · obtain rfl := Except.ok.inj h
    exact List.forall_mem_nil _
  obtain ⟨c, hc, h⟩ := Attempt.bind_eq_ok.mp h
  obtain rfl := Except.ok.inj h
  obtain ⟨_, -, hc⟩ := Attempt.bind_eq_ok.mp hc
  obtain ⟨_, -, hc⟩ := Attempt.bind_eq_ok.mp hc
  obtain ⟨_, -, hc⟩ := Attempt.bind_eq_ok.mp hc
  obtain ⟨_, -, hc⟩ := Attempt.bind_eq_ok.mp hc
  obtain ⟨_, -, hc⟩ := Attempt.bind_eq_ok.mp hc
  obtain rfl := Except.ok.inj hc
  exact List.forall_mem_singleton.mpr
    (Candidate.isOver_of_pair rfl (fun n hn => List.mem_pair.mp hn) ha hb)

/-- Candidates of exclusions are over the graph. -/
theorem isOver_of_exclusions {cs : List Candidate} (h : g.exclusions = .ok cs) :
    ∀ c ∈ cs, c.IsOver g .exclusion := by
  obtain ⟨table, htable, h⟩ := Attempt.bind_eq_ok.mp h
  obtain ⟨subjects, -, h⟩ := Attempt.bind_eq_ok.mp h
  obtain ⟨parts, hparts, h⟩ := Attempt.bind_eq_ok.mp h
  obtain rfl := Except.ok.inj h
  refine Attempt.mapM_flatten_keeps hparts fun subject _ cs hcs => ?_
  obtain ⟨parts, hparts, hcs⟩ := Attempt.bind_eq_ok.mp hcs
  obtain rfl := Except.ok.inj hcs
  have hmember : ∀ d ∈ (g.conditionsOn subject).flatMap fun n => table.members n.id,
      d.literal.node ∈ g.nodes := by
    intro d hd
    obtain ⟨n, -, hd⟩ := List.mem_flatMap.mp hd
    exact mem_of_demandTable htable n.id d hd
  exact Attempt.mapM_flatten_keeps hparts fun x hx cs hcs =>
    isOver_of_exclusionPair (hmember _ (mem_of_mem_pairsOf hx).1)
      (hmember _ (mem_of_mem_pairsOf hx).2) hcs

end Exclusions

section Circularities

/-- A cycle arranged has the same members. -/
theorem mem_of_arrangeCycle {ns ms : List Name} (h : arrangeCycle ns = .ok ms) : ms ⊆ ns := by
  cases ns with
  | nil =>
      obtain rfl := Except.ok.inj h
      exact List.Subset.refl _
  | cons n r =>
      rw [arrangeCycle] at h
      split at h
      · obtain rfl := Except.ok.inj h
        exact List.append_subset.mpr
          ⟨(List.dropWhile_sublist _).subset, (List.takeWhile_sublist _).subset⟩
      · cases h

/-- Candidates of circular dependencies are over the graph. -/
theorem isOver_of_circularities {cs : List Candidate} (h : g.circularities = .ok cs) :
    ∀ c ∈ cs, c.IsOver g .circularity := by
  obtain ⟨cycles, hcycles, h⟩ := Attempt.bind_eq_ok.mp h
  intro c hc
  obtain ⟨ns, hns, hc⟩ := Attempt.exists_of_mem_mapM h hc
  obtain ⟨vs, -, hvs⟩ := Attempt.exists_of_mem_mapM hcycles hns
  obtain ⟨_, -, hc⟩ := Attempt.bind_eq_ok.mp hc
  obtain ⟨_, -, hc⟩ := Attempt.bind_eq_ok.mp hc
  obtain rfl := Except.ok.inj hc
  refine ⟨rfl, fun n hn => ?_⟩
  obtain ⟨v, -, hv⟩ := List.mem_filterMap.mp (mem_of_arrangeCycle hvs hn)
  exact List.mem_map.mp (List.mem_of_getElem? hv)

end Circularities

section Thresholds

theorem mem_of_leafTable {table : List Demand} (h : g.leafTable = .ok table) :
    ∀ d ∈ table, d.literal.node ∈ g.nodes := by
  refine Attempt.foldlM_keeps (P := fun t : List Demand => ∀ d ∈ t, d.literal.node ∈ g.nodes) h
    (List.forall_mem_nil _) fun t ht policy _ t' ht' => ?_
  obtain ⟨ps, hps, ht'⟩ := Attempt.bind_eq_ok.mp ht'
  obtain rfl := Except.ok.inj ht'
  refine List.foldlRecOn (motive := fun t : List Demand => ∀ d ∈ t, d.literal.node ∈ g.nodes) ps _
    ht fun t ht p hp => ?_
  split
  · exact ht
  · exact List.forall_mem_append.mpr ⟨ht, List.forall_mem_singleton.mpr
      (isOn_of_paths hps p hp p.leaf List.mem_cons_self).node⟩

theorem mem_of_rangeOf? {table : List Demand} (htable : ∀ d ∈ table, d.literal.node ∈ g.nodes)
    {n : Node} {r : Range} (h : rangeOf? table n = .ok (some r)) : r.literal.node ∈ g.nodes := by
  unfold rangeOf? at h
  split at h
  · cases h
  · next d hd =>
    obtain ⟨c, -, hc⟩ := Attempt.map_eq_ok.mp h
    obtain ⟨i, -, rfl⟩ := Option.map_eq_some_iff.mp hc
    exact htable d (List.mem_of_find?_eq_some hd)

theorem isOver_of_thresholdPair {subject : Name} {a b : Range} {cs : List Candidate}
    (ha : a.literal.node ∈ g.nodes) (hb : b.literal.node ∈ g.nodes)
    (h : thresholdPair subject a b = .ok cs) : ∀ c ∈ cs, c.IsOver g .incompatibleThreshold := by
  rw [thresholdPair] at h
  split at h
  · obtain rfl := Except.ok.inj h
    exact List.forall_mem_nil _
  dsimp only at h
  split at h
  · obtain rfl := Except.ok.inj h
    exact List.forall_mem_nil _
  obtain ⟨c, hc, h⟩ := Attempt.bind_eq_ok.mp h
  obtain rfl := Except.ok.inj h
  obtain ⟨_, -, hc⟩ := Attempt.bind_eq_ok.mp hc
  obtain ⟨_, -, hc⟩ := Attempt.bind_eq_ok.mp hc
  obtain rfl := Except.ok.inj hc
  exact List.forall_mem_singleton.mpr
    (Candidate.isOver_of_pair rfl (fun n hn => List.mem_pair.mp hn) ha hb)

theorem isOver_of_sweepRanges {subject : Name} {rs active : List Range} {cs : List Candidate}
    (hrs : ∀ r ∈ rs, r.literal.node ∈ g.nodes) (hactive : ∀ r ∈ active, r.literal.node ∈ g.nodes)
    (h : sweepRanges subject active rs = .ok cs) :
    ∀ c ∈ cs, c.IsOver g .incompatibleThreshold := by
  induction rs generalizing active cs with
  | nil =>
      obtain rfl := Except.ok.inj h
      exact List.forall_mem_nil _
  | cons a r ih =>
      obtain ⟨ha, hr⟩ := List.forall_mem_cons.mp hrs
      have hreached : ∀ b ∈ active.filter fun b => b.interval.reaches a.interval,
          b.literal.node ∈ g.nodes := fun b hb => hactive b (List.mem_of_mem_filter hb)
      obtain ⟨parts, hparts, h⟩ := Attempt.bind_eq_ok.mp h
      obtain ⟨rest, hrest, h⟩ := Attempt.bind_eq_ok.mp h
      obtain rfl := Except.ok.inj h
      refine List.forall_mem_append.mpr ⟨?_, ih hr ?_ hrest⟩
      · exact Attempt.mapM_flatten_keeps hparts fun b hb cs hcs =>
          isOver_of_thresholdPair ha (hreached b hb) hcs
      · exact List.forall_mem_append.mpr ⟨hreached, List.forall_mem_singleton.mpr ha⟩

theorem subset_of_arrangeRanges {rs ss : List Range} (h : arrangeRanges rs = .ok ss) : ss ⊆ rs := by
  unfold arrangeRanges at h
  split at h
  · exact Except.ok.inj h ▸ (List.mergeSort_perm rs _).subset
  · exact Sorting.subset_of_sort h

/-- Candidates of incompatible thresholds are over the graph. -/
theorem isOver_of_incompatibleThresholds {cs : List Candidate}
    (h : g.incompatibleThresholds = .ok cs) : ∀ c ∈ cs, c.IsOver g .incompatibleThreshold := by
  obtain ⟨table, htable, h⟩ := Attempt.bind_eq_ok.mp h
  obtain ⟨subjects, -, h⟩ := Attempt.bind_eq_ok.mp h
  obtain ⟨parts, hparts, h⟩ := Attempt.bind_eq_ok.mp h
  obtain rfl := Except.ok.inj h
  refine Attempt.mapM_flatten_keeps hparts fun subject _ cs hcs => ?_
  obtain ⟨ranges, hranges, hcs⟩ := Attempt.bind_eq_ok.mp hcs
  obtain ⟨sorted, hsorted, hcs⟩ := Attempt.bind_eq_ok.mp hcs
  refine isOver_of_sweepRanges (fun r hr => ?_) (List.forall_mem_nil _) hcs
  obtain ⟨r', hr', hsome⟩ := List.mem_filterMap.mp (subset_of_arrangeRanges hsorted hr)
  obtain ⟨n, -, hrange⟩ := Attempt.exists_of_mem_mapM hranges hr'
  obtain rfl : r' = some r := hsome
  exact mem_of_rangeOf? (mem_of_leafTable htable) hrange

end Thresholds

section Impossibilities

variable {table : List Impossibility}

theorem isOver_of_impossibilityPair {policy : Name} {entry : Nat} {i : Impossibility}
    {s t : TableSearch} {x : Literal × Literal} (ha : x.1.node ∈ g.nodes) (hb : x.2.node ∈ g.nodes)
    (hs : ∀ c ∈ s.found, c.IsOver g .impossibility)
    (h : impossibilityPair policy entry i s x = .ok t) :
    ∀ c ∈ t.found, c.IsOver g .impossibility := by
  rw [impossibilityPair] at h
  split at h
  · exact Except.ok.inj h ▸ hs
  obtain ⟨c, hc, h⟩ := Attempt.bind_eq_ok.mp h
  obtain rfl := Except.ok.inj h
  obtain ⟨_, -, hc⟩ := Attempt.bind_eq_ok.mp hc
  obtain ⟨_, -, hc⟩ := Attempt.bind_eq_ok.mp hc
  obtain ⟨_, -, hc⟩ := Attempt.bind_eq_ok.mp hc
  obtain ⟨_, -, hc⟩ := Attempt.bind_eq_ok.mp hc
  obtain rfl := Except.ok.inj hc
  exact List.forall_mem_append.mpr ⟨hs, List.forall_mem_singleton.mpr
    (Candidate.isOver_of_pair rfl (fun n hn => List.mem_pair.mp hn) ha hb)⟩

theorem isOver_of_impossibilityEntry {policy : Name} {ls : List Literal}
    {s t : TableSearch} {entry : Impossibility × Nat} (hls : ∀ l ∈ ls, l.node ∈ g.nodes)
    (hs : ∀ c ∈ s.found, c.IsOver g .impossibility)
    (h : impossibilityEntry policy ls s entry = .ok t) :
    ∀ c ∈ t.found, c.IsOver g .impossibility := by
  rw [impossibilityEntry] at h
  split at h
  · exact Except.ok.inj h ▸ hs
  obtain ⟨firsts, hfirsts, h⟩ := Attempt.bind_eq_ok.mp h
  split at h
  · exact Except.ok.inj h ▸ hs
  obtain ⟨seconds, hseconds, h⟩ := Attempt.bind_eq_ok.mp h
  refine Attempt.foldlM_keeps (P := fun s : TableSearch => ∀ c ∈ s.found, c.IsOver g _) h hs
    fun s hs x hx t ht => ?_
  obtain ⟨a, ha, hx⟩ := List.mem_flatMap.mp hx
  obtain ⟨b, hb, rfl⟩ := List.mem_map.mp hx
  exact isOver_of_impossibilityPair (hls a (Attempt.subset_of_filterM hfirsts ha))
    (hls b (Attempt.subset_of_filterM hseconds hb)) hs ht

/-- Candidates of impossibilities are over the graph. -/
theorem isOver_of_impossibilities {cs : List Candidate} (h : g.impossibilities table = .ok cs) :
    ∀ c ∈ cs, c.IsOver g .impossibility := by
  obtain ⟨s, hs, rfl⟩ := Attempt.map_eq_ok.mp h
  refine Attempt.foldlM_keeps (P := fun s : TableSearch => ∀ c ∈ s.found, c.IsOver g _) hs
    (List.forall_mem_nil _) fun s hs policy _ t ht => ?_
  obtain ⟨ps, hps, ht⟩ := Attempt.bind_eq_ok.mp ht
  refine Attempt.foldlM_keeps (P := fun s : TableSearch => ∀ c ∈ s.found, c.IsOver g _) ht hs
    fun s hs p hp t ht => ?_
  exact Attempt.foldlM_keeps (P := fun s : TableSearch => ∀ c ∈ s.found, c.IsOver g _) ht hs
    fun s hs entry _ t ht =>
      isOver_of_impossibilityEntry (fun l hl => (isOn_of_paths hps p hp l hl).node) hs ht

end Impossibilities

/-- The candidates of a pass are of its kind and about nodes of the graph. -/
theorem isOver_of_candidates {table : List Impossibility} {k : ConflictKind} {cs : List Candidate}
    (h : g.candidates table k = .ok cs) : ∀ c ∈ cs, c.IsOver g k := by
  cases k with
  | contradiction => exact isOver_of_contradictions h
  | exclusion => exact isOver_of_exclusions h
  | circularity => exact isOver_of_circularities h
  | incompatibleThreshold => exact isOver_of_incompatibleThresholds h
  | impossibility => exact isOver_of_impossibilities h

end PolicyGraph
end Eligibility
