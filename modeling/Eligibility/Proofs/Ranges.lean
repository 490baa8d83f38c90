import Eligibility.Proofs.Candidates
/-!
# Ranges of graphs that can be read

**Order.**  The numbers that comparisons compare with are finite and their nodes are named by
texts, so that ranges always have an order.

**Results.**
* `exists_leafTable`: the conditions of all declared policies.
* `exists_incompatibleThresholds`: the pass over ranges.
* `exists_other_candidates`: every pass but that over dependencies gives sound candidates.
-/

namespace Eligibility
namespace PolicyGraph

variable {g : PolicyGraph}

/-- A range of a literal with a policy that begins at a number or nowhere. -/
structure Range.IsOn (g : PolicyGraph) (r : Range) : Prop where
  demand : Demand.IsOn g ⟨r.policy, r.literal⟩
  low : r.interval.low.isNaN = false

theorem IsLegible.isOrderly (h : g.IsLegible) {r : Range} (hr : r.IsOn g) : r.isOrderly = true := by
  obtain ⟨s, hs⟩ : ∃ s, r.literal.node.id = .str s := h.ids _ hr.demand.literal.node
  simp [Range.isOrderly, hr.low, hs]

/-- The interval of a comparison with a finite number begins at a number or nowhere. -/
theorem isNaN_low {o : Operator} {x : Number} (hx : x.isFinite = true) {i : Interval}
    (hi : Constraint.intervalOf o x = some i) : i.low.isNaN = false := by
  have hnumber : x.isNaN = false := by
    cases x with
    | nan m => cases hx
    | _ => rfl
  unfold Constraint.intervalOf at hi
  split at hi
  · cases hi; exact hnumber
  · cases hi; rfl
  · cases hi; rfl
  · cases hi; exact hnumber
  · cases hi; exact hnumber
  · cases hi

/-- The conditions of all declared policies. -/
theorem IsLegible.exists_leafTable (h : g.IsLegible) :
    ∃ ds, g.leafTable = .ok ds ∧ ∀ d ∈ ds, d.IsOn g := by
  refine Attempt.exists_foldlM (P := fun ds : List Demand => ∀ d ∈ ds, d.IsOn g)
    (List.forall_mem_nil _) fun acc hacc policy hpolicy => ?_
  obtain ⟨ps, hps⟩ := h.paths policy hpolicy
  have hnamed := h.exists_of_mem_policyIds hpolicy
  have hfold : ∀ (xs : List Path) (acc : List Demand), (∀ x ∈ xs, x.leaf.IsOn g) →
      (∀ d ∈ acc, d.IsOn g) →
      ∀ d ∈ xs.foldl (fun acc x =>
        if acc.any fun d => d.literal.node.id.alike x.leaf.node.id then acc
        else acc ++ [⟨policy, x.leaf⟩]) acc, d.IsOn g := by
    intro xs
    induction xs with
    | nil => exact fun acc _ hacc => hacc
    | cons x r ih =>
        intro acc hxs hacc
        refine ih _ (fun y hy => hxs y (List.mem_cons_of_mem _ hy)) fun d hd => ?_
        dsimp only at hd
        split at hd
        · exact hacc d hd
        · rcases List.mem_append.mp hd with hd | hd
          · exact hacc d hd
          · rw [List.mem_singleton.mp hd]
            exact ⟨hxs x (by simp), hnamed⟩
  have hleaf : ∀ x ∈ ps, x.leaf.IsOn g :=
    fun x hx => isOn_of_paths hps x hx x.leaf List.mem_cons_self
  exact ⟨_, by rw [hps]; rfl, hfold ps acc hleaf hacc⟩

theorem IsLegible.exists_rangeOf? (h : g.IsLegible) {table : List Demand}
    (htable : ∀ d ∈ table, d.IsOn g) {n : Node} (hn : n ∈ g.nodes) :
    ∃ r?, rangeOf? table n = .ok r? ∧ ∀ r ∈ r?, r.IsOn g := by
  unfold rangeOf?
  split
  · exact ⟨none, rfl, by simp⟩
  next d hfind =>
    have hd := htable d (List.mem_of_find?_eq_some hfind)
    have hsame : n = d.literal.node := by
      obtain ⟨k, hk⟩ := h.ids _ hd.literal.node
      have halike := List.find?_some hfind
      simp only [hk] at halike
      exact h.eq_of_id hn hd.literal.node ((Json.alike_str_left.mp halike).trans hk.symm)
    have hnode : Node.IsComparison (Literal.mk n true).node := by
      rw [hsame]
      exact h.leaf _ hd.literal.node hd.literal.leaf
    obtain ⟨k, -, hk, hfinite⟩ := hnode.exists_condition
    refine ⟨_, by rw [hk, Attempt.map_ok], fun r hr => ?_⟩
    obtain ⟨i, hi, rfl⟩ := Option.mem_map.mp hr
    refine ⟨hd, ?_⟩
    cases hv : k.value with
    | number x =>
        have hinterval : Constraint.intervalOf k.operator x = some i := by
          simpa [Condition.interval, Condition.ofConstraint, hv] using hi
        exact isNaN_low (hfinite x hv) hinterval
    | _ => simp [Condition.interval, Condition.ofConstraint, hv] at hi

theorem IsLegible.exists_thresholdPair (h : g.IsLegible) (subject : Name) {a b : Range}
    (ha : a.IsOn g) (hb : b.IsOn g) :
    ∃ cs, thresholdPair subject a b = .ok cs ∧ ∀ c ∈ cs, c.IsSound g .incompatibleThreshold := by
  obtain ⟨e, he⟩ := (h.isComparison hb.demand.literal).exists_evidence
  obtain ⟨f, hf⟩ := (h.isComparison ha.demand.literal).exists_evidence
  rw [thresholdPair]
  split
  · exact ⟨[], rfl, List.forall_mem_nil _⟩
  dsimp only
  split
  · exact ⟨[], rfl, List.forall_mem_nil _⟩
  simp only [thresholdCandidate, he, hf, Attempt.ok_bind]
  refine ⟨_, rfl, fun c hc => ?_⟩
  rw [List.mem_singleton.mp hc]
  refine h.isSound_of_pair ha.demand.literal hb.demand.literal rfl
    (fun n hn => List.mem_pair.mp hn) rfl fun n hn => ?_
  rcases List.mem_pair.mp hn with rfl | rfl
  · exact ha.demand.policy
  · exact hb.demand.policy

/-- Ranges are swept by induction on those to come; those that are still reached are on the
graph. -/
theorem IsLegible.exists_sweepRanges (h : g.IsLegible) (subject : Name) {rs : List Range}
    (hrs : ∀ r ∈ rs, r.IsOn g) {active : List Range}
    (hactive : ∀ r ∈ active, r.IsOn g) :
    ∃ cs, sweepRanges subject active rs = .ok cs ∧
      ∀ c ∈ cs, c.IsSound g .incompatibleThreshold := by
  induction rs generalizing active with
  | nil => exact ⟨[], rfl, List.forall_mem_nil _⟩
  | cons a r ih =>
      obtain ⟨ha, hr⟩ := List.forall_mem_cons.mp hrs
      have hreached : ∀ b ∈ active.filter fun b => b.interval.reaches a.interval,
          b.IsOn g := fun b hb => hactive b (List.mem_of_mem_filter hb)
      obtain ⟨parts, hparts, hsound⟩ := Attempt.exists_mapM_flatten fun b hb =>
        h.exists_thresholdPair subject ha (hreached b hb)
      have hgrown : ∀ b ∈ (active.filter fun b => b.interval.reaches a.interval) ++ [a],
          b.IsOn g :=
        List.forall_mem_append.mpr ⟨hreached, List.forall_mem_singleton.mpr ha⟩
      obtain ⟨rest, hrest, hsoundRest⟩ := ih hr hgrown
      refine ⟨parts.flatten ++ rest, ?_, List.forall_mem_append.mpr ⟨hsound, hsoundRest⟩⟩
      rw [sweepRanges, hparts, Attempt.ok_bind, hrest]
      rfl

/-- Ranges with opposite outcomes are found. -/
theorem IsLegible.exists_incompatibleThresholds (h : g.IsLegible) :
    ∃ cs, g.incompatibleThresholds = .ok cs ∧ ∀ c ∈ cs, c.IsSound g .incompatibleThreshold := by
  obtain ⟨table, htable, hon⟩ := h.exists_leafTable
  obtain ⟨subjects, hsubjects, -⟩ := h.exists_subjects
  have hsubject : ∀ subject ∈ subjects.map Json.str,
      ∃ cs, g.thresholdsOn table subject = .ok cs ∧
        ∀ c ∈ cs, c.IsSound g .incompatibleThreshold := by
    intro subject _
    obtain ⟨found, hfound, -⟩ := Attempt.exists_mapM fun n hn =>
      h.exists_rangeOf? hon (mem_conditionsOn subject hn)
    have hranges : ∀ r ∈ found.filterMap id, r.IsOn g := by
      intro r hr
      obtain ⟨r?, hmem, hsome⟩ := List.mem_filterMap.mp hr
      obtain ⟨n, hn, hrange⟩ := Attempt.exists_of_mem_mapM hfound hmem
      obtain ⟨x, hx, hxon⟩ := h.exists_rangeOf? hon (mem_conditionsOn subject hn)
      obtain rfl := Except.ok.inj (hx.symm.trans hrange)
      exact hxon r hsome
    have horderly : (found.filterMap id).all Range.isOrderly = true :=
      List.all_eq_true.mpr fun r hr => h.isOrderly (hranges r hr)
    rw [thresholdsOn, hfound, Attempt.ok_bind, arrangeRanges, if_pos horderly, Attempt.ok_bind]
    exact h.exists_sweepRanges subject
      (fun r hr => hranges r ((List.mergeSort_perm _ _).mem_iff.mp hr)) (List.forall_mem_nil _)
  obtain ⟨parts, hparts, hsound⟩ := Attempt.exists_mapM_flatten hsubject
  refine ⟨parts.flatten, ?_, hsound⟩
  rw [incompatibleThresholds, htable, Attempt.ok_bind, hsubjects, Attempt.ok_bind, hparts]
  rfl

/-- Every pass but that over dependencies gives its candidates, and they are sound. -/
theorem IsLegible.exists_other_candidates (h : g.IsLegible) {table : List Impossibility}
    (htable : ∀ i ∈ table, i.IsFitting) {k : ConflictKind} (hk : k ≠ .circularity) :
    ∃ cs, g.candidates table k = .ok cs ∧ ∀ c ∈ cs, c.IsSound g k := by
  cases k with
  | contradiction => exact h.exists_contradictions
  | exclusion => exact h.exists_exclusions
  | circularity => exact absurd rfl hk
  | incompatibleThreshold => exact h.exists_incompatibleThresholds
  | impossibility => exact h.exists_impossibilities htable

end PolicyGraph
end Eligibility
