import Eligibility.Proofs.Implications
import Eligibility.Proofs.Tenets
import Eligibility.Proofs.Thresholds
/-!
# Ranges with opposite outcomes

**Sweep.**  The ranges on a variable are swept in the order of their beginnings, each against those
before it that are still reached.  A range that does not reach the beginning of another one shares
no number with any that begins later, so that nothing is lost when it is dropped for good.

**Overlaps.**  Two conditions of different policies are opposed where they compare one variable with
numbers, one of them is to hold and the other one to fail, and some number meets both comparisons.

**Results.**
* `sweepRanges_eq`: the sweep finds what comparing each range with all before it does.
* `incompatibleThresholds_spec`: the candidates are those of opposed conditions, each pair once, and
  what the numbers that two opposed conditions share do to them.
-/

namespace Eligibility

/-- Whether a number meets the comparison of a condition that compares with a number, and not by
inequality. -/
def Node.Spans (n : Node) (q : Rat) : Prop :=
  ∃ o x a, n.operator? = .ok (some o) ∧ o ≠ .neq ∧ n.value? = some (.number x) ∧
    x.value? = some a ∧ o.Compares q a

/-- A comparison that numbers meet has an interval, inequality apart. -/
theorem Constraint.exists_intervalOf_of_compares {o : Operator} {q a : Rat} (x : Number)
    (hne : o ≠ .neq) (hq : o.Compares q a) : ∃ i, intervalOf o x = some i := by
  cases o with
  | neq => exact absurd rfl hne
  | isIn => cases hq
  | notIn => cases hq
  | and => cases hq
  | or => cases hq
  | not => cases hq
  | _ => exact ⟨_, rfl⟩

namespace PolicyGraph

variable {g : PolicyGraph}

/-- Whether a literal is at the end of some path of a declared policy. -/
def IsLeafOf (g : PolicyGraph) (policy : Name) (l : Literal) : Prop :=
  policy ∈ g.policyIds false ∧ ∃ ps, g.paths policy = .ok ps ∧ ∃ p ∈ ps, p.leaf = l

/-- Whether conditions of two policies compare one variable with numbers, one is to hold and the
other one to fail, and some number meets both comparisons. -/
structure AreOpposed (g : PolicyGraph) (a : Name) (l : Literal) (b : Name) (m : Literal) :
    Prop where
  first : g.IsLeafOf a l
  second : g.IsLeafOf b m
  policies : a ≠ b
  subject : l.subject = m.subject
  polarity : l.positive ≠ m.positive
  meet : ∃ q, l.node.Spans q ∧ m.node.Spans q

end PolicyGraph

/-- Whether a candidate is that of two conditions of two policies; its severity tells whether
exactly one number meets both comparisons. -/
structure Candidate.IsOverlapOf (c : Candidate) (a : Name) (l : Literal) (b : Name) (m : Literal) :
    Prop where
  kind : c.kind = .incompatibleThreshold
  nodes : c.nodes = [l.node.id, m.node.id]
  policies : c.policies = [a, b]
  clauses : c.clauses = [l.clause, m.clause]
  severity : c.severity = .low ∧ (∃ q, ∀ p, (l.node.Spans p ∧ m.node.Spans p) ↔ p = q) ∨
    c.severity = .high ∧ ¬ ∃ q, ∀ p, (l.node.Spans p ∧ m.node.Spans p) ↔ p = q

namespace PolicyGraph

variable {cfg : Settings} {g : PolicyGraph}

section Pairs

/-- The pairs of different items are different, in whatever order a pair is read. -/
theorem pairwise_pairsOf {α β : Type} {k : α → β} {xs : List α} (h : (xs.map k).Nodup) :
    (pairsOf xs).Pairwise fun x y => ¬ [k x.1, k x.2].Perm [k y.1, k y.2] := by
  induction xs with
  | nil => exact .nil
  | cons a r ih =>
      obtain ⟨ha, hr⟩ := List.nodup_cons.mp h
      refine List.pairwise_append.mpr ⟨?_, ih hr, ?_⟩
      · refine List.pairwise_map.mpr ((List.pairwise_map.mp hr).imp fun hne hperm => hne ?_)
        exact List.singleton_perm_singleton.mp ((List.perm_cons _).mp hperm)
      · rintro x hx y hy hperm
        obtain ⟨b, -, rfl⟩ := List.mem_map.mp hx
        obtain ⟨hfirst, hsecond⟩ := mem_of_mem_pairsOf hy
        rcases List.mem_pair.mp (hperm.mem_iff.mp List.mem_cons_self) with heq | heq
        · exact ha (heq ▸ List.mem_map_of_mem hfirst)
        · exact ha (heq ▸ List.mem_map_of_mem hsecond)

/-- What is found by asking about each item and every earlier one, where some came before all. -/
def compareAll {α β : Type} (f : α → α → List β) (earlier : List α) : List α → List β
  | [] => []
  | a :: r => earlier.flatMap (f a) ++ compareAll f (earlier ++ [a]) r

/-- Asking about each item and every earlier one is asking about all pairs. -/
theorem compareAll_perm {α β : Type} (f : α → α → List β) (earlier xs : List α) :
    (compareAll f earlier xs).Perm
      (xs.flatMap (fun x => earlier.flatMap (f x)) ++ (pairsOf xs).flatMap fun p => f p.2 p.1) := by
  induction xs generalizing earlier with
  | nil => exact .refl _
  | cons a r ih =>
      have hsplit : (r.flatMap fun x => (earlier ++ [a]).flatMap (f x)).Perm
          (r.flatMap (fun x => earlier.flatMap (f x)) ++ r.flatMap fun x => f x a) := by
        simp only [List.flatMap_append, List.flatMap_singleton]
        exact (List.flatMap_append_perm _ _ _).symm
      simp only [compareAll, pairsOf, List.flatMap_cons, List.flatMap_append, List.flatMap_map,
        List.append_assoc]
      refine .append_left _ ((ih _).trans ?_)
      rw [← List.append_assoc]
      exact hsplit.append_right _

end Pairs

section Taken

/-- What a partial function finds, named like where it is found, is named by fewer of the names. -/
theorem map_filterMap_sublist {α β γ : Type} {f : α → Option β} {k : α → γ} {m : β → γ}
    {xs : List α} (h : ∀ x ∈ xs, ∀ y ∈ f x, m y = k x) :
    ((xs.filterMap f).map m).Sublist (xs.map k) := by
  induction xs with
  | nil => exact .refl _
  | cons x r ih =>
      obtain ⟨hx, hr⟩ := List.forall_mem_cons.mp h
      cases hy : f x with
      | none => simpa [hy] using (ih hr).cons _
      | some y => simpa [hy, hx y hy] using ih hr

/-- A range that is taken into account: that of the condition at the end of some path of a declared
policy. -/
structure Range.IsTaken (g : PolicyGraph) (r : Range) : Prop where
  leaf : g.IsLeafOf r.policy r.literal
  interval : ∃ o x, r.literal.node.operator? = .ok (some o) ∧
    r.literal.node.value? = some (.number x) ∧ Constraint.intervalOf o x = some r.interval

theorem IsLeafOf.exists_site {a : Name} {l : Literal} (h : g.IsLeafOf a l) :
    ∃ t ∈ g.sites, t.policy = a ∧ t.path.leaf = l := by
  obtain ⟨ha, ps, hps, p, hp, rfl⟩ := h
  exact ⟨⟨a, p⟩, mem_sites.mpr ⟨ha, ps, hps, hp⟩, rfl, rfl⟩

theorem isLeafOf_of_mem_sites {t : Site} (ht : t ∈ g.sites) : g.IsLeafOf t.policy t.path.leaf := by
  obtain ⟨ha, ps, hps, hp⟩ := mem_sites.mp ht
  exact ⟨ha, ps, hps, _, hp, rfl⟩

theorem IsLeafOf.isOn {a : Name} {l : Literal} (h : g.IsLeafOf a l) : l.IsOn g := by
  obtain ⟨t, ht, -, rfl⟩ := h.exists_site
  exact isOn_of_mem_sites ht _ List.mem_cons_self

/-- The numbers that conditions compare with are finite. -/
theorem IsLegible.exists_value (hg : g.IsLegible) {l : Literal} (hl : l.IsOn g) {x : Number}
    (hx : l.node.value? = some (.number x)) : ∃ a, x.value? = some a := by
  obtain ⟨cfg, policy, h, hsound, hcomparison, hnode⟩ := hg.isComparison hl
  obtain ⟨-, v, hv, -, hfinite⟩ := hsound.comparison hcomparison
  rw [hnode, Plan.conditionNode_value?, hv] at hx
  exact Option.isSome_iff_exists.mp (hfinite x (Option.some.inj hx))

theorem Range.IsTaken.isProper {r : Range} (hr : r.IsTaken g) (hg : g.IsLegible) :
    r.interval.IsProper := by
  obtain ⟨o, x, -, hx, hi⟩ := hr.interval
  obtain ⟨a, ha⟩ := hg.exists_value hr.leaf.isOn hx
  exact Constraint.isProper_of_intervalOf ha hi

theorem Range.IsTaken.isOn {r : Range} (hr : r.IsTaken g) (hg : g.IsLegible) : r.IsOn g where
  demand := ⟨hr.leaf.isOn, hg.exists_of_mem_policyIds hr.leaf.1⟩
  low := (hr.isProper hg).low

/-- A range has the numbers that meet its condition. -/
theorem Range.IsTaken.mem_iff {r : Range} (hr : r.IsTaken g) (hg : g.IsLegible) {q : Rat} :
    r.interval.Mem q ↔ r.literal.node.Spans q := by
  obtain ⟨o, x, ho, hx, hi⟩ := hr.interval
  obtain ⟨a, ha⟩ := hg.exists_value hr.leaf.isOn hx
  have hne : o ≠ .neq := by
    rintro rfl
    cases hi
  rw [Constraint.mem_intervalOf ha hi]
  constructor
  · exact fun hq => ⟨o, x, a, ho, hne, hx, ha, hq⟩
  · rintro ⟨o', x', a', ho', -, hx', ha', hq⟩
    obtain rfl := Option.some.inj (Except.ok.inj (ho'.symm.trans ho))
    obtain rfl := Operand.number.inj (Option.some.inj (hx'.symm.trans hx))
    obtain rfl := Option.some.inj (ha'.symm.trans ha)
    exact hq

/-- A condition that numbers meet has its range. -/
theorem IsLeafOf.exists_isTaken {a : Name} {l : Literal} (h : g.IsLeafOf a l) {q : Rat}
    (hq : l.node.Spans q) : ∃ i, Range.IsTaken g ⟨i, a, l⟩ := by
  obtain ⟨o, x, a, ho, hne, hx, -, hq⟩ := hq
  obtain ⟨i, hi⟩ := Constraint.exists_intervalOf_of_compares x hne hq
  exact ⟨i, h, o, x, ho, hx, hi⟩

/-- The range of a condition is looked up. -/
theorem IsTable.rangeOf?_eq_iff (hg : g.IsLegible) (howned : g.IsOwned) {ds : List Demand}
    (hds : g.IsTable ds) {n : Node} (hn : n ∈ g.nodes) {r : Range} :
    rangeOf? ds n = .ok (some r) ↔ r.IsTaken g ∧ r.literal.node = n := by
  obtain ⟨s, hs⟩ := hg.ids n hn
  constructor
  · intro hr
    unfold rangeOf? at hr
    split at hr
    · cases hr
    next d hfind =>
      rw [hs] at hfind
      obtain ⟨hid, t, ht, rfl⟩ := (hds.find?_eq_some hg howned).mp hfind
      have hleaf := isLeafOf_of_mem_sites ht
      have hnode : t.path.leaf.node = n := hg.eq_of_id hleaf.isOn.node hn (hid.trans hs.symm)
      obtain ⟨c, hc, hr⟩ := Attempt.map_eq_ok.mp hr
      obtain ⟨i, hi, rfl⟩ := Option.map_eq_some_iff.mp hr
      obtain ⟨o?, ho, rfl⟩ := Attempt.map_eq_ok.mp hc
      refine ⟨⟨hleaf, ?_⟩, hnode⟩
      have hoperator : n.operator? = .ok o? := by
        unfold Literal.operator? at ho
        cases hop : n.operator? with
        | error f => simp [hop] at ho
        | ok o => simpa [hop] using ho
      unfold Condition.interval at hi
      split at hi
      · next o x ho' hx => exact ⟨o, x, hnode ▸ hoperator.trans (congrArg _ ho'), hnode ▸ hx, hi⟩
      · cases hi
  · rintro ⟨hr, rfl⟩
    obtain ⟨o, x, ho, hx, hi⟩ := hr.interval
    obtain ⟨t, ht, hpolicy, hleaf⟩ := hr.leaf.exists_site
    have hfind : (ds.find? fun d => d.literal.node.id.alike r.literal.node.id) =
        some ⟨r.policy, r.literal⟩ := by
      rw [hs]
      exact (hds.find?_eq_some hg howned).mpr ⟨hs, t, ht, by rw [hpolicy, hleaf]⟩
    have hcondition : (Literal.mk r.literal.node true).condition =
        .ok ⟨r.literal.node.subject, some o, some (.number x)⟩ := by
      rw [Literal.condition, Literal.operator?, ho, hx]
      rfl
    rw [rangeOf?, hfind, hcondition]
    simp [Condition.interval, hi]

/-- The ranges on a variable in the order of their beginnings: those that are taken into account,
each with a node of its own. -/
structure AreRangesOn (g : PolicyGraph) (x : String) (rs : List Range) : Prop where
  mem_iff : ∀ r, r ∈ rs ↔ r.IsTaken g ∧ r.literal.subject = .str x
  nodup : (rs.map fun r => r.literal.node.id).Nodup
  sorted : rs.Pairwise fun a b => a.interval.BeginsNoLater b.interval

/-- What is ranked no later begins no later. -/
theorem Range.beginsNoLater_of_rank {a b : Range} (h : a.rank ≤ b.rank) :
    a.interval.BeginsNoLater b.interval := by
  simp only [rank, Prod.Lex.toLex_le_toLex] at h
  refine h.imp_right fun h => ⟨h.1, ?_⟩
  rcases h.2 with hlt | ⟨heq, -⟩
  · exact .inl (by simpa using (Bool.lt_iff.mp hlt).1)
  · cases hclosed : a.interval.lowClosed with
    | true => exact .inl rfl
    | false => exact .inr (by simpa [hclosed] using heq.symm)

/-- The ranges on a variable are found and arranged. -/
theorem IsLegible.exists_areRangesOn (hg : g.IsLegible) (howned : g.IsOwned) {ds : List Demand}
    (hds : g.IsTable ds) (x : String) :
    ∃ rs, g.thresholdsOn ds (.str x) = sweepRanges (.str x) [] rs ∧ g.AreRangesOn x rs := by
  have hnode : ∀ n ∈ g.conditionsOn (.str x), n ∈ g.nodes :=
    fun n hn => (mem_conditionsOn_str.mp hn).1
  have hon : ∀ d ∈ ds, d.IsOn g := by
    intro d hd
    obtain ⟨t, ht, rfl⟩ := hds.sound d hd
    exact ⟨isOn_of_mem_sites ht _ List.mem_cons_self, hg.exists_policy_of_site ht⟩
  let range (n : Node) : Option Range := (rangeOf? ds n).toOption.join
  have hrange : ∀ n ∈ g.conditionsOn (.str x), rangeOf? ds n = .ok (range n) := by
    intro n hn
    obtain ⟨r?, hr, -⟩ := hg.exists_rangeOf? hon (hnode n hn)
    simp [range, hr, Except.toOption]
  have htaken : ∀ n ∈ g.conditionsOn (.str x), ∀ r, range n = some r ↔
      r.IsTaken g ∧ r.literal.node = n := by
    intro n hn r
    rw [← hds.rangeOf?_eq_iff hg howned (hnode n hn), hrange n hn, Except.ok.injEq]
  have hfound : (g.conditionsOn (.str x)).mapM (rangeOf? ds) =
      .ok ((g.conditionsOn (.str x)).map range) := Attempt.mapM_eq_ok_map hrange
  have hmem : ∀ r, r ∈ (g.conditionsOn (.str x)).filterMap range ↔
      r.IsTaken g ∧ r.literal.subject = .str x := by
    intro r
    rw [List.mem_filterMap]
    constructor
    · rintro ⟨n, hn, hr⟩
      obtain ⟨htaken, rfl⟩ := (htaken n hn r).mp hr
      exact ⟨htaken, (mem_conditionsOn_str.mp hn).2.2⟩
    · rintro ⟨hr, hsubject⟩
      have hn := mem_conditionsOn_str.mpr ⟨hr.leaf.isOn.node, hr.leaf.isOn.leaf, hsubject⟩
      exact ⟨_, hn, (htaken _ hn r).mpr ⟨hr, rfl⟩⟩
  obtain ⟨rs, hrs, hperm, hsorted⟩ := exists_arrangeRanges fun r hr =>
    hg.isOrderly (((hmem r).mp hr).1.isOn hg)
  refine ⟨rs, ?_, fun r => hperm.mem_iff.trans (hmem r), ?_,
    hsorted.imp Range.beginsNoLater_of_rank⟩
  · rw [thresholdsOn, hfound, Attempt.ok_bind, List.filterMap_map, Function.id_comp, hrs,
      Attempt.ok_bind]
  · refine (hperm.map _).nodup_iff.mpr ?_
    have hsame : ∀ n ∈ g.conditionsOn (.str x), ∀ r ∈ range n, r.literal.node.id = n.id :=
      fun n hn r hr => congrArg Node.id ((htaken n hn r).mp hr).2
    have hids : ((g.conditionsOn (.str x)).map Node.id).Nodup :=
      (hg.nodup_conditionsOn x).map_on fun m hm n hn => hg.eq_of_id (hnode m hm) (hnode n hn)
    exact hids.sublist <| map_filterMap_sublist fun n hn r hr =>
      congrArg Node.id ((htaken n hn r).mp hr).2

end Taken

section Sweep

variable {a b : Range} {x : String}

/-- What two ranges are compared to. -/
def overlapsOf (x : String) (a b : Range) : List Candidate := given (thresholdPair (.str x) a b)

/-- Two ranges that are taken into account are compared. -/
theorem IsLegible.thresholdPair_eq (hg : g.IsLegible) (x : String) (ha : a.IsTaken g)
    (hb : b.IsTaken g) : thresholdPair (.str x) a b = .ok (overlapsOf x a b) := by
  obtain ⟨cs, hcs, -⟩ := hg.exists_thresholdPair (.str x) (ha.isOn hg) (hb.isOn hg)
  rw [overlapsOf, hcs, given]

/-- The numbers of two ranges are those of their intersection. -/
theorem Range.IsTaken.mem_intersect (ha : a.IsTaken g) (hb : b.IsTaken g) (hg : g.IsLegible)
    (q : Rat) : (a.interval.intersect b.interval).Mem q ↔
      a.literal.node.Spans q ∧ b.literal.node.Spans q := by
  rw [Interval.mem_intersect (ha.isProper hg) (hb.isProper hg), ha.mem_iff hg, hb.mem_iff hg]

/-- The intersection of two ranges is empty where they share no number. -/
theorem Range.IsTaken.isEmpty_intersect (ha : a.IsTaken g) (hb : b.IsTaken g) (hg : g.IsLegible) :
    (a.interval.intersect b.interval).isEmpty = false ↔
      ∃ q, a.literal.node.Spans q ∧ b.literal.node.Spans q := by
  rw [Interval.isEmpty_eq_false_iff ((ha.isProper hg).intersect (hb.isProper hg))]
  exact exists_congr (ha.mem_intersect hb hg)

/-- Two ranges on a variable have at most one candidate, and one exactly where they are opposed. -/
theorem IsLegible.overlapsOf_spec (hg : g.IsLegible) (ha : a.IsTaken g) (hb : b.IsTaken g)
    (hsubject : a.literal.subject = b.literal.subject) :
    (∃ c, overlapsOf x a b = [c] ∧ g.AreOpposed a.policy a.literal b.policy b.literal ∧
      c.IsOverlapOf a.policy a.literal b.policy b.literal) ∨
    overlapsOf x a b = [] ∧ ¬ g.AreOpposed a.policy a.literal b.policy b.literal := by
  obtain ⟨s, hs, -⟩ := hg.exists_of_mem_policyIds ha.leaf.1
  obtain ⟨t, ht, -⟩ := hg.exists_of_mem_policyIds hb.leaf.1
  obtain ⟨e, he⟩ := (hg.isComparison hb.leaf.isOn).exists_evidence
  obtain ⟨f, hf⟩ := (hg.isComparison ha.leaf.isOn).exists_evidence
  have hpolicies : b.policy.same a.policy = decide (t = s) := by rw [hs, ht, Json.same_str]
  rw [overlapsOf, thresholdPair, hpolicies]
  by_cases hskip : (decide (t = s) || b.literal.positive == a.literal.positive) = true
  · rw [if_pos hskip]
    refine .inr ⟨rfl, fun hopposed => ?_⟩
    rcases Bool.or_eq_true_iff.mp hskip with heq | heq
    · exact hopposed.policies (by rw [hs, ht, of_decide_eq_true heq])
    · exact hopposed.polarity (eq_of_beq heq).symm
  rw [if_neg hskip]
  simp only [Bool.or_eq_true, decide_eq_true_eq, beq_iff_eq, not_or] at hskip
  dsimp only
  cases hempty : (a.interval.intersect b.interval).isEmpty with
  | true =>
      refine .inr ⟨rfl, fun hopposed => ?_⟩
      rw [(ha.isEmpty_intersect hb hg).mpr hopposed.meet] at hempty
      cases hempty
  | false =>
      left
      simp only [thresholdCandidate, he, hf, Attempt.ok_bind]
      refine ⟨_, rfl, ⟨ha.leaf, hb.leaf, fun h => hskip.1 ?_, hsubject, Ne.symm hskip.2,
        (ha.isEmpty_intersect hb hg).mp hempty⟩, rfl, rfl, rfl, rfl, ?_⟩
      · exact Json.str.inj (ht.symm.trans (h.symm.trans hs))
      have hpoint := Interval.isPoint_iff ((ha.isProper hg).intersect (hb.isProper hg))
      simp only [ha.mem_intersect hb hg] at hpoint
      by_cases hone : (a.interval.intersect b.interval).isPoint = true
      · exact .inl ⟨if_pos hone, hpoint.mp hone⟩
      · exact .inr ⟨if_neg hone, fun h => hone (hpoint.mpr h)⟩

/-- Ranges that share no number have no candidate. -/
theorem IsLegible.overlapsOf_eq_nil (hg : g.IsLegible) (ha : a.IsTaken g) (hb : b.IsTaken g)
    (hno : ∀ q, b.interval.Mem q → ¬ a.interval.Mem q) : overlapsOf x a b = [] := by
  have hempty : (a.interval.intersect b.interval).isEmpty = true := by
    by_contra hne
    obtain ⟨q, hqa, hqb⟩ := (ha.isEmpty_intersect hb hg).mp (by simpa using hne)
    exact hno q ((hb.mem_iff hg).mpr hqb) ((ha.mem_iff hg).mpr hqa)
  rw [overlapsOf, thresholdPair]
  dsimp only
  rw [if_pos hempty]
  split <;> rfl

/-- Dropping the ranges that do not reach another one loses nothing for those that begin no earlier
than it. -/
theorem IsLegible.flatMap_overlapsOf_reaching (hg : g.IsLegible) {active : List Range} {c : Range}
    (hactive : ∀ b ∈ active, b.IsTaken g) (ha : a.IsTaken g) (hc : c.IsTaken g)
    (hac : a.interval.BeginsNoLater c.interval) :
    (active.filter fun b => b.interval.reaches a.interval).flatMap (overlapsOf x c) =
      active.flatMap (overlapsOf x c) := by
  induction active with
  | nil => rfl
  | cons b r ih =>
      obtain ⟨hb, hr⟩ := List.forall_mem_cons.mp hactive
      rw [List.filter_cons]
      split
      · rw [List.flatMap_cons, List.flatMap_cons, ih hr]
      next hreach =>
        have hnone : overlapsOf x c b = [] := hg.overlapsOf_eq_nil hc hb fun q hq =>
          Interval.not_mem_of_reaches (hb.isProper hg) (ha.isProper hg) (by simpa using hreach)
            hac hq
        rw [List.flatMap_cons, hnone, List.nil_append, ih hr]

/-- Sweeping ranges in the order of their beginnings finds what comparing each with all before it
does, by induction on those to come: for each of these the ranges that are still active find what
all earlier ones do. -/
theorem IsLegible.sweepRanges_eq (hg : g.IsLegible) {active earlier rs : List Range}
    (hrs : ∀ r ∈ rs, r.IsTaken g)
    (hsorted : rs.Pairwise fun a b => a.interval.BeginsNoLater b.interval)
    (hactive : ∀ r ∈ active, r.IsTaken g)
    (hsame : ∀ c ∈ rs, active.flatMap (overlapsOf x c) = earlier.flatMap (overlapsOf x c)) :
    sweepRanges (.str x) active rs = .ok (compareAll (overlapsOf x) earlier rs) := by
  induction rs generalizing active earlier with
  | nil => rfl
  | cons a r ih =>
      obtain ⟨ha, hr⟩ := List.forall_mem_cons.mp hrs
      obtain ⟨hbefore, hsorted⟩ := List.pairwise_cons.mp hsorted
      obtain ⟨hsameFirst, hsameRest⟩ := List.forall_mem_cons.mp hsame
      have hreaching : ∀ b ∈ active.filter fun b => b.interval.reaches a.interval, b.IsTaken g :=
        fun b hb => hactive b (List.mem_of_mem_filter hb)
      have hfirst : a.interval.BeginsNoLater a.interval := .inr ⟨rfl, (Bool.eq_false_or_eq_true _)⟩
      have hparts := Attempt.mapM_eq_ok_map fun b hb => hg.thresholdPair_eq x ha (hreaching b hb)
      have hnext : ∀ c ∈ r,
          ((active.filter fun b => b.interval.reaches a.interval) ++ [a]).flatMap
              (overlapsOf x c) = (earlier ++ [a]).flatMap (overlapsOf x c) := by
        intro c hc
        rw [List.flatMap_append, List.flatMap_append,
          hg.flatMap_overlapsOf_reaching hactive ha (hr c hc) (hbefore c hc), hsameRest c hc]
      have hrest := ih hr hsorted
        (List.forall_mem_append.mpr ⟨hreaching, List.forall_mem_singleton.mpr ha⟩) hnext
      rw [sweepRanges, hparts, Attempt.ok_bind, hrest, Attempt.ok_bind, compareAll, ← hsameFirst,
        ← hg.flatMap_overlapsOf_reaching hactive ha ha hfirst, List.flatMap_def]
      rfl

end Sweep

section Pass

variable {cs : List Candidate} {x : String}

/-- Whether candidates are of opposed conditions of some kind, any opposed conditions of this kind
have one, and no two are about one pair of nodes, in whatever order the pair is read. -/
structure AreOverlaps (g : PolicyGraph) (cs : List Candidate) (P : Literal → Prop) : Prop where
  apart : cs.Pairwise fun c d => ¬ c.nodes.Perm d.nodes
  sound : ∀ c ∈ cs, ∃ a l b m, P l ∧ g.AreOpposed a l b m ∧ c.IsOverlapOf a l b m
  complete : ∀ a l b m, P l → g.AreOpposed a l b m →
    ∃ c ∈ cs, c.IsOverlapOf a l b m ∨ c.IsOverlapOf b m a l

theorem AreOpposed.symm {a b : Name} {l m : Literal} (h : g.AreOpposed a l b m) :
    g.AreOpposed b m a l where
  first := h.second
  second := h.first
  policies := h.policies.symm
  subject := h.subject.symm
  polarity := h.polarity.symm
  meet := h.meet.imp fun _ hq => hq.symm

/-- The candidates of the ranges on a variable are those of opposed conditions on it. -/
theorem IsLegible.areOverlaps_compareAll (hg : g.IsLegible) {rs : List Range}
    (hrs : g.AreRangesOn x rs) :
    g.AreOverlaps (compareAll (overlapsOf x) [] rs) fun l => l.subject = .str x := by
  have hperm : (compareAll (overlapsOf x) [] rs).Perm
      ((pairsOf rs).flatMap fun p => overlapsOf x p.2 p.1) := by
    have hnone : (rs.flatMap fun a => ([] : List Range).flatMap (overlapsOf x a)) = [] :=
      List.flatMap_eq_nil_iff.mpr fun _ _ => rfl
    refine (compareAll_perm (overlapsOf x) [] rs).trans (.of_eq ?_)
    rw [hnone, List.nil_append]
  have hspec : ∀ a ∈ rs, ∀ b ∈ rs,
      (∃ c, overlapsOf x a b = [c] ∧ g.AreOpposed a.policy a.literal b.policy b.literal ∧
        c.IsOverlapOf a.policy a.literal b.policy b.literal) ∨
      overlapsOf x a b = [] ∧ ¬ g.AreOpposed a.policy a.literal b.policy b.literal := by
    intro a ha b hb
    obtain ⟨ha, hax⟩ := (hrs.mem_iff a).mp ha
    obtain ⟨hb, hbx⟩ := (hrs.mem_iff b).mp hb
    exact hg.overlapsOf_spec ha hb (hax.trans hbx.symm)
  have hof : ∀ a ∈ rs, ∀ b ∈ rs, ∀ c ∈ overlapsOf x a b,
      g.AreOpposed a.policy a.literal b.policy b.literal ∧
        c.IsOverlapOf a.policy a.literal b.policy b.literal := by
    intro a ha b hb c hc
    rcases hspec a ha b hb with ⟨d, hd, hopposed, hof⟩ | ⟨hnone, -⟩
    · rw [hd] at hc
      exact List.mem_singleton.mp hc ▸ ⟨hopposed, hof⟩
    · rw [hnone] at hc
      cases hc
  refine ⟨?_, fun c hc => ?_, fun a l b m hl hopposed => ?_⟩
  · refine (hperm.pairwise_iff fun hno hp => hno hp.symm).mpr ?_
    refine List.pairwise_flatMap.mpr ⟨fun p hp => ?_, ?_⟩
    · obtain ⟨ha, hb⟩ := mem_of_mem_pairsOf hp
      rcases hspec p.2 hb p.1 ha with ⟨d, hd, -⟩ | ⟨hnone, -⟩
      · rw [hd]
        exact List.pairwise_singleton _ _
      · rw [hnone]
        exact .nil
    · refine (pairwise_pairsOf hrs.nodup).imp_of_mem fun hp hp' hne c hc d hd hsame => hne ?_
      obtain ⟨ha, hb⟩ := mem_of_mem_pairsOf hp
      obtain ⟨ha', hb'⟩ := mem_of_mem_pairsOf hp'
      rw [(hof _ hb _ ha c hc).2.nodes, (hof _ hb' _ ha' d hd).2.nodes] at hsame
      exact (List.Perm.swap _ _ _).trans (hsame.trans (List.Perm.swap _ _ _))
  · obtain ⟨p, hp, hc⟩ := List.mem_flatMap.mp (hperm.mem_iff.mp hc)
    obtain ⟨ha, hb⟩ := mem_of_mem_pairsOf hp
    exact ⟨_, _, _, _, ((hrs.mem_iff _).mp hb).2, hof _ hb _ ha c hc⟩
  · obtain ⟨q, hql, hqm⟩ := hopposed.meet
    obtain ⟨i, hi⟩ := hopposed.first.exists_isTaken hql
    obtain ⟨j, hj⟩ := hopposed.second.exists_isTaken hqm
    have hfirst := (hrs.mem_iff _).mpr ⟨hi, hl⟩
    have hsecond := (hrs.mem_iff _).mpr ⟨hj, hopposed.subject.symm.trans hl⟩
    have hne : (⟨i, a, l⟩ : Range) ≠ ⟨j, b, m⟩ :=
      fun h => hopposed.policies (congrArg Range.policy h)
    -- the later of the two ranges is compared with the earlier one
    rcases mem_pairsOf_of_ne hfirst hsecond hne with hp | hp
    · rcases hspec _ hsecond _ hfirst with ⟨c, hc, -, hof⟩ | ⟨-, hno⟩
      · exact ⟨c, hperm.mem_iff.mpr (List.mem_flatMap.mpr ⟨_, hp, hc ▸ List.mem_cons_self⟩),
          .inr hof⟩
      · exact absurd hopposed.symm hno
    · rcases hspec _ hfirst _ hsecond with ⟨c, hc, -, hof⟩ | ⟨-, hno⟩
      · exact ⟨c, hperm.mem_iff.mpr (List.mem_flatMap.mpr ⟨_, hp, hc ▸ List.mem_cons_self⟩),
          .inl hof⟩
      · exact absurd hopposed hno

/-- The candidates on a variable are those of opposed conditions on it. -/
theorem IsLegible.exists_thresholdsOn (hg : g.IsLegible) (howned : g.IsOwned) {ds : List Demand}
    (hds : g.IsTable ds) (x : String) : ∃ cs, g.thresholdsOn ds (.str x) = .ok cs ∧
      g.AreOverlaps cs fun l => l.subject = .str x := by
  obtain ⟨rs, hrs, hon⟩ := hg.exists_areRangesOn howned hds x
  refine ⟨_, ?_, hg.areOverlaps_compareAll hon⟩
  rw [hrs]
  exact hg.sweepRanges_eq (fun r hr => ((hon.mem_iff r).mp hr).1) hon.sorted
    (List.forall_mem_nil _) fun _ _ => rfl

/-- Candidates on different variables are about different nodes. -/
theorem IsLegible.not_perm_of_subject_ne (hg : g.IsLegible) {c d : Candidate} {a b a' b' : Name}
    {l m l' m' : Literal} (hlm : g.AreOpposed a l b m) (hlm' : g.AreOpposed a' l' b' m')
    (hc : c.IsOverlapOf a l b m) (hd : d.IsOverlapOf a' l' b' m')
    (hne : l.subject ≠ l'.subject) : ¬ c.nodes.Perm d.nodes := by
  intro hperm
  rw [hc.nodes, hd.nodes] at hperm
  have hl := hlm.first.isOn.node
  rcases List.mem_pair.mp (hperm.mem_iff.mp List.mem_cons_self) with hid | hid
  · exact hne (congrArg Node.subject (hg.eq_of_id hl hlm'.first.isOn.node hid))
  · refine hne (Eq.trans ?_ hlm'.subject.symm)
    exact congrArg Node.subject (hg.eq_of_id hl hlm'.second.isOn.node hid)

/-- The candidates of the pass are those of opposed conditions. -/
theorem IsLegible.exists_areOverlaps (hg : g.IsLegible) (howned : g.IsOwned) :
    ∃ cs, g.incompatibleThresholds = .ok cs ∧ g.AreOverlaps cs fun _ => True := by
  obtain ⟨ds, hds, htable⟩ := hg.exists_isTable
  obtain ⟨xs, hxs, hnodup, hmem⟩ := hg.exists_variables
  have hsubjects : g.subjects = .ok ((Name.sortTexts xs).map .str) := by
    rw [subjects, hxs, Name.sorted_strs]
  have hon := hg.exists_thresholdsOn howned htable
  let found (x : String) : List Candidate := given (g.thresholdsOn ds (.str x))
  have hfound : ∀ x, g.thresholdsOn ds (.str x) = .ok (found x) ∧
      g.AreOverlaps (found x) fun l => l.subject = .str x := by
    intro x
    obtain ⟨cs, hcs, hof⟩ := hon x
    have heq : found x = cs := by simp only [found, hcs, given]
    exact ⟨hcs.trans (congrArg _ heq.symm), heq ▸ hof⟩
  have hparts : ((Name.sortTexts xs).map Json.str).mapM (g.thresholdsOn ds) =
      .ok ((Name.sortTexts xs).map found) := by
    rw [Attempt.mapM_eq_ok, List.forall₂_map_left_iff, List.forall₂_map_right_iff,
      List.forall₂_same]
    exact fun x _ => (hfound x).1
  refine ⟨(Name.sortTexts xs).flatMap found, ?_, ?_, fun c hc => ?_, fun a l b m _ hopposed => ?_⟩
  · rw [incompatibleThresholds, hds, Attempt.ok_bind, hsubjects, Attempt.ok_bind, hparts]
    rfl
  · refine List.pairwise_flatMap.mpr ⟨fun x _ => (hfound x).2.apart, ?_⟩
    refine ((Name.sortTexts_perm xs).nodup_iff.mpr hnodup).imp fun hne c hc d hd => ?_
    obtain ⟨a, l, b, m, hx, hlm, hof⟩ := (hfound _).2.sound c hc
    obtain ⟨a', l', b', m', hy, hlm', hof'⟩ := (hfound _).2.sound d hd
    exact hg.not_perm_of_subject_ne hlm hlm' hof hof' fun h =>
      hne (Json.str.inj (hx.symm.trans (h.trans hy)))
  · obtain ⟨x, -, hc⟩ := List.mem_flatMap.mp hc
    obtain ⟨a, l, b, m, -, hof⟩ := (hfound x).2.sound c hc
    exact ⟨a, l, b, m, trivial, hof⟩
  · obtain ⟨x, hx⟩ := (hg.isComparison hopposed.first.isOn).exists_subject
    obtain ⟨c, hc, hof⟩ := (hfound x).2.complete a l b m hx hopposed
    have hon := hopposed.first.isOn
    have hx := (Name.sortTexts_perm xs).mem_iff.mpr ((hmem x).mpr ⟨_, hon.node, hon.leaf, hx⟩)
    exact ⟨c, List.mem_flatMap.mpr ⟨x, hx, hc⟩, hof⟩

end Pass

section Outcomes

/-- A number that meets the comparison of a condition satisfies what a literal on it says where the
condition is to hold, and violates it where the condition is to fail. -/
theorem IsLegible.exists_satisfiedBy_of_spans (hg : g.IsLegible) {l : Literal} (hl : l.IsOn g) :
    ∃ k : Constraint, l.condition = .ok (.ofConstraint k) ∧ ∀ (y : Number) (q : Rat),
      y.value? = some q → l.node.Spans q → k.satisfiedBy (.float y) = .answer l.positive := by
  obtain ⟨c, o, hfits, hfinite, hoperator, hvalue, ho, hcondition⟩ :=
    (hg.isComparison hl).exists_constraint
  have hc : c.IsOrdinary := ⟨hfits, hfinite⟩
  refine ⟨_, hcondition, fun y q hy hq => ?_⟩
  obtain ⟨o', x, a, ho', -, hx, ha, hq⟩ := hq
  obtain rfl : c.operator = o' := Option.some.inj (Except.ok.inj (hoperator.symm.trans ho'))
  have hnumber : c.value = .number x := Option.some.inj (hvalue.symm.trans hx)
  have hmeets : c.Meets (.number q) := by
    simp only [Constraint.Meets, hnumber]
    exact ⟨a, ha, hq⟩
  have hscalar : (Json.float y).scalar? = some (.number q) := by
    rw [Json.scalar?, hy, Option.map_some]
  cases hpositive : l.positive with
  | true =>
      rw [hpositive, if_pos rfl] at ho
      rw [← Option.some.inj ho]
      exact (Constraint.satisfiedBy_iff hc hscalar).mpr hmeets
  | false =>
      have hneg : c.negated? = some { c with operator := o } := by
        rw [hpositive, if_neg (by simp)] at ho
        rw [Constraint.negated?, ho, Option.map_some]
      obtain ⟨d, hd, hordinary, -, hdomain⟩ := hc.exists_negated
      obtain rfl := Option.some.inj (hd.symm.trans hneg)
      obtain ⟨b, hb, hiff⟩ := Constraint.exists_satisfiedBy hordinary hscalar
        (hmeets.kind_eq.trans hdomain.symm)
      rw [Constraint.meets_negated hc hneg hmeets.kind_eq] at hiff
      rw [hb, Bool.eq_false_iff.mpr fun hyes => hiff.mp hyes hmeets]

/-- Over the graph of a payload the pass over ranges gives the candidates of any two conditions at
the ends of paths of two declared policies that compare one variable with numbers, and not by
inequality, of which one is to hold and the other one to fail and whose comparisons some number
meets; and of each two only one.  Its severity is low exactly where one number alone meets both
comparisons, and high elsewhere.  A double that meets both satisfies what is to hold and violates
the other one. -/
theorem incompatibleThresholds_spec {payload : Json}
    (hg : (RuleSet.compile cfg payload).outcome = .ok g) :
    ∃ cs, g.incompatibleThresholds = .ok cs ∧
      (∀ c ∈ cs, ∃ a l b m, g.AreOpposed a l b m ∧ c.IsOverlapOf a l b m) ∧
      (∀ a l b m, g.AreOpposed a l b m → ∃ c ∈ cs, c.IsOverlapOf a l b m ∨ c.IsOverlapOf b m a l) ∧
      cs.Pairwise (fun c d => ¬ c.nodes.Perm d.nodes) ∧
      ∀ a l b m, g.AreOpposed a l b m → l.positive = true → m.positive = false →
        ∃ k k' : Constraint, l.condition = .ok (.ofConstraint k) ∧
          m.condition = .ok (.ofConstraint k') ∧ ∀ (y : Number) (q : Rat), y.value? = some q →
            l.node.Spans q → m.node.Spans q →
              k.satisfiedBy (.float y) = .answer true ∧
                k'.satisfiedBy (.float y) = .answer false := by
  obtain ⟨p, h, -⟩ := exists_named_plan hg
  obtain ⟨cs, hcs, hof⟩ := h.isLegible.exists_areOverlaps h.hasTenets.isOwned
  refine ⟨cs, hcs, fun c hc => ?_, fun a l b m => hof.complete a l b m trivial, hof.apart,
    fun a l b m hlm hpositive hnegative => ?_⟩
  · obtain ⟨a, l, b, m, -, hlm⟩ := hof.sound c hc
    exact ⟨a, l, b, m, hlm⟩
  · obtain ⟨k, hk, hchecked⟩ := h.isLegible.exists_satisfiedBy_of_spans hlm.first.isOn
    obtain ⟨k', hk', hchecked'⟩ := h.isLegible.exists_satisfiedBy_of_spans hlm.second.isOn
    refine ⟨k, k', hk, hk', fun y q hy hql hqm => ⟨?_, ?_⟩⟩
    · rw [hchecked y q hy hql, hpositive]
    · rw [hchecked' y q hy hqm, hnegative]

end Outcomes

section Touching

/-- The head of a comparison of an age with eighteen. -/
def ageHead (id : String) (o : Operator) (clause : String) : Head :=
  { id, subject := "age", operator := o, value := some (.number (.finite 18)), clause,
    confidence := some Number.one }

/-- Not eighteen or less. -/
def notMinor : Rule :=
  .node { id := "n", subject := "x", operator := .not, clause := "e",
          confidence := some Number.one } [.node (ageHead "b" .lte "e") []]

/-- A policy for those of eighteen and more, and one for those that are not eighteen or less. -/
def touching : RuleSet where
  rules := [.node (ageHead "a" .gte "c") [], notMinor]
  documents := [{ policy := "p", clauses := [{ id := "c" }] },
    { policy := "q", clauses := [{ id := "e" }] }]

def touchingPlan : Plan :=
  ⟨touching.documents, [("p", .node (ageHead "a" .gte "c") []), ("q", notMinor)]⟩

theorem spans_ageHead {id : String} {o : Operator} {clause policy : String} {q : Rat} :
    (Plan.conditionNode cfg policy (ageHead id o clause)).Spans q ↔ o ≠ .neq ∧ o.Compares q 18 := by
  simp only [Node.Spans, Plan.conditionNode_operator?, Plan.conditionNode_value?, ageHead,
    Except.ok.injEq, Option.some.injEq, Operand.number.injEq]
  constructor
  · rintro ⟨_, _, a, rfl, hne, rfl, ha, hq⟩
    cases ha
    exact ⟨hne, hq⟩
  · exact fun ⟨hne, hq⟩ => ⟨_, _, _, rfl, hne, rfl, rfl, hq⟩

/-- The payload of a comparison of an age with eighteen. -/
def agePayload (id : String) (o : Operator) (clause : String) : Json :=
  .obj [("rule_id", .str id), ("variable", .str "age"), ("operator", .str o.name),
    ("value", .float (.finite 18)), ("clause_reference", .str clause),
    ("confidence", .float Number.one)]

/-- The payload of the two policies. -/
def touchingPayload : Json :=
  .obj [("rules", .arr [agePayload "a" .gte "c",
      .obj [("rule_id", .str "n"), ("variable", .str "x"), ("operator", .str "NOT"),
        ("clause_reference", .str "e"), ("confidence", .float Number.one),
        ("children", .arr [agePayload "b" .lte "e"])]]),
    ("documents", .arr [
      .obj [("policy_id", .str "p"), ("clauses", .arr [.obj [("clause_id", .str "c")]])],
      .obj [("policy_id", .str "q"), ("clauses", .arr [.obj [("clause_id", .str "e")]])]])]

/-- The two policies are opposed, and in eighteen alone. -/
theorem incompatibleThresholds_spec_touching : ∃ g cs,
    (RuleSet.compile .standard touchingPayload).outcome = .ok g ∧
      g.incompatibleThresholds = .ok cs ∧ ∃ c ∈ cs, c.severity = .low := by
  obtain ⟨g, hvalid, hbuild, h⟩ : ∃ g, touching.validate .standard = .ok _ ∧
      (touching.build .standard).outcome = .ok g ∧ g.IsDrawnFrom .standard touchingPlan :=
    exists_build (by decide +kernel) rfl (by decide +kernel)
  have hg : (RuleSet.compile .standard touchingPayload).outcome = .ok g :=
    (outcome_compile rfl hvalid).trans hbuild
  obtain ⟨cs, hcs, -, hcomplete, -⟩ := incompatibleThresholds_spec hg
  have hp : { policy := "p", clauses := [{ id := "c" }] } ∈ touchingPlan.documents := by
    simp [touchingPlan, touching]
  have hq : { policy := "q", clauses := [{ id := "e" }] } ∈ touchingPlan.documents := by
    simp [touchingPlan, touching]
  have hscenes : touchingPlan.scenesOf "p" = [⟨⟨ageHead "a" .gte "c", true⟩, [], ["a"]⟩] := rfl
  have hscenes' : touchingPlan.scenesOf "q" = [⟨⟨ageHead "b" .lte "e", false⟩, [], ["n", "b"]⟩] :=
    rfl
  have hpaths := h.hasTreesOf.paths_eq hp
  have hpaths' := h.hasTreesOf.paths_eq hq
  rw [hscenes] at hpaths
  rw [hscenes'] at hpaths'
  have hl : g.IsLeafOf (.str "p") ((⟨ageHead "a" .gte "c", true⟩ : Commitment).literal _ "p") :=
    ⟨h.mem_policyIds.mpr ⟨_, hp, rfl⟩, _, hpaths, _, List.mem_singleton_self _, rfl⟩
  have hm : g.IsLeafOf (.str "q") ((⟨ageHead "b" .lte "e", false⟩ : Commitment).literal _ "q") :=
    ⟨h.mem_policyIds.mpr ⟨_, hq, rfl⟩, _, hpaths', _, List.mem_singleton_self _, rfl⟩
  -- eighteen alone meets both comparisons
  have hmeet : ∀ q : Rat, ((Plan.conditionNode .standard "p" (ageHead "a" .gte "c")).Spans q ∧
      (Plan.conditionNode .standard "q" (ageHead "b" .lte "e")).Spans q) ↔ q = 18 := by
    intro q
    rw [spans_ageHead, spans_ageHead]
    simpa [Operator.Compares] using and_comm.trans le_antisymm_iff.symm
  have hopposed := AreOpposed.mk hl hm (by simp)
    (by simp [Literal.subject, Commitment.literal, ageHead]) (by decide) ⟨18, (hmeet 18).mpr rfl⟩
  obtain ⟨c, hc, hof⟩ := hcomplete _ _ _ _ hopposed
  refine ⟨g, cs, hg, hcs, c, hc, ?_⟩
  rcases hof with hof | hof
  · exact (hof.severity.resolve_right fun hno => hno.2 ⟨18, hmeet⟩).1
  · exact (hof.severity.resolve_right fun hno =>
      hno.2 ⟨18, fun q => and_comm.trans (hmeet q)⟩).1

end Touching

end PolicyGraph
end Eligibility
