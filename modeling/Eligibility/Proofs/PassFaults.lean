import Eligibility.Proofs.Endings
import Eligibility.Proofs.Passes
/-!
# What keeps passes from a report

**Passes.**  The passes that go through paths, and the one that goes through requirements, go
too deep only where a declared policy is entangled.  The others do not descend into rules.

**Report.**  A candidate whose policies share no scope is suppressed; any other fault of a
candidate ends the run.  No fault that ends a run is reported.

**Results.**
* `failsOnly_candidates`: what keeps a pass from its candidates.
* `failsOnly_detect`: what keeps a run from its report.
* `endsUnless_detect`: a full run has no report where a declared policy is entangled.
-/

namespace Eligibility
open Attempt

section Sorting

variable {α : Type} {P : Fault → Prop} {before : Sorting.Comparison Fault α}

theorem Sorting.failsOnly_runLength (h : ∀ x y, FailsOnly P (before x y)) (falling : Bool) (x : α)
    (xs : List α) : FailsOnly P (runLength before falling x xs) := by
  induction xs generalizing x with
  | nil => exact .ok 0
  | cons y r ih =>
      refine (h y x).bind fun b _ => ?_
      split
      · exact (ih y).bind fun _ _ => .ok _
      · exact .ok 0

theorem Sorting.failsOnly_seek (h : ∀ x y, FailsOnly P (before x y)) (xs : List α) (x : α)
    (fuel low high : Nat) : FailsOnly P (seek before xs x fuel low high) := by
  induction fuel generalizing low high with
  | zero => exact .ok low
  | succ fuel ih =>
      unfold seek
      dsimp only
      split
      · exact .ok low
      · split
        · exact .ok low
        · refine (h _ _).bind fun b _ => ?_
          split
          · exact ih _ _
          · exact ih _ _

theorem Sorting.failsOnly_sort (h : ∀ x y, FailsOnly P (before x y)) (xs : List α) :
    FailsOnly P (sort before xs) := by
  match xs with
  | [] => exact .ok _
  | [x] => exact .ok _
  | x :: y :: r =>
      exact (h y x).bind fun falling _ => (failsOnly_runLength h falling x _).bind fun n _ =>
        .foldlM fun sorted z _ => (failsOnly_seek h sorted z _ _ _).map

end Sorting

namespace PolicyGraph

variable {endless : Prop} {g : PolicyGraph} {policy : Name}

/-- Whether a declared policy is entangled, for a descent that stops at comparisons. -/
def HasEntangled (g : PolicyGraph) : Prop :=
  ∃ policy ∈ g.policyIds false, g.IsEntangled g.Combines policy

theorem failsOnly_evidence (l : Literal) : FailsOnly (Fault.IsInner endless) l.evidence :=
  l.failsOnly_describe.map

/-- The paths of a declared policy are found, unless a declared policy is entangled. -/
theorem failsOnly_paths_declared (hpolicy : policy ∈ g.policyIds false) :
    FailsOnly (Fault.IsInner g.HasEntangled) (g.paths policy) :=
  (g.failsOnly_paths policy).imp fun _ hf => hf.imp fun h => ⟨policy, hpolicy, h⟩

section Contradictions

theorem failsOnly_contradictionCandidate (policy a b : Name) (leaf other : Literal) :
    FailsOnly (Fault.IsInner endless) (contradictionCandidate policy a b leaf other) :=
  leaf.failsOnly_describe.bind fun _ _ => other.failsOnly_describe.bind fun _ _ =>
    (failsOnly_evidence leaf).bind fun _ _ => (failsOnly_evidence other).bind fun _ _ => .ok _

theorem failsOnly_contradictionStep (policy : Name) (leaf : Literal) (s : PairSearch)
    (other : Literal) :
    FailsOnly (Fault.IsInner endless) (contradictionStep policy leaf s other) := by
  refine (Fault.failsOnly_sorted _).bind fun ns _ => ?_
  split
  · split
    · exact .ok _
    · refine leaf.failsOnly_condition.bind fun c _ => other.failsOnly_condition.bind fun d _ =>
        (c.failsOnly_jointly d).bind fun together _ => ?_
      split
      · exact .ok _
      · exact (failsOnly_contradictionCandidate policy _ _ leaf other).bind fun _ _ => .ok _
  · exact .ok _

theorem failsOnly_contradictions (g : PolicyGraph) :
    FailsOnly (Fault.IsInner g.HasEntangled) g.contradictions :=
  .map (.foldlM fun _ _ hpolicy => (failsOnly_paths_declared hpolicy).bind fun _ _ =>
    .foldlM fun _ p _ => .foldlM fun s other _ => failsOnly_contradictionStep _ p.leaf s other)

theorem not_hasEntangled_of_contradictions {cs : List Candidate} (h : g.contradictions = .ok cs) :
    ¬ g.HasEntangled := by
  rintro ⟨policy, hpolicy, hentangled⟩
  obtain ⟨s, hs, -⟩ := map_eq_ok.mp h
  obtain ⟨_, _, hstep⟩ := exists_ok_of_foldlM hs hpolicy
  obtain ⟨ps, hps, -⟩ := bind_eq_ok.mp hstep
  exact not_isEntangled_of_paths hps hentangled

end Contradictions

section Exclusions

theorem failsOnly_exclusionPair (g : PolicyGraph) (subject : Name) (a b : Demand) :
    FailsOnly (Fault.IsInner endless) (g.exclusionPair subject a b) := by
  have hcandidate : FailsOnly (Fault.IsInner endless) (g.exclusionCandidate subject a b) :=
    (g.failsOnly_linkedBy _ _).bind fun _ _ => a.literal.failsOnly_describe.bind fun _ _ =>
      b.literal.failsOnly_describe.bind fun _ _ => (failsOnly_evidence _).bind fun _ _ =>
        (failsOnly_evidence _).bind fun _ _ => .ok _
  unfold exclusionPair
  split
  · exact .ok _
  · refine a.literal.failsOnly_condition.bind fun c _ => b.literal.failsOnly_condition.bind
      fun d _ => (c.failsOnly_jointly d).bind fun together _ => ?_
    split
    · exact .ok _
    · exact hcandidate.bind fun _ _ => .ok _

theorem failsOnly_exclusions (g : PolicyGraph) :
    FailsOnly (Fault.IsInner g.HasEntangled) g.exclusions := by
  have htable : FailsOnly (Fault.IsInner g.HasEntangled) g.demandTable :=
    .bind (.mapM fun policy hpolicy => ((g.failsOnly_requirements policy).imp fun _ hf =>
      hf.imp fun h => ⟨policy, hpolicy, h⟩).map) fun _ _ => .ok _
  exact htable.bind fun table _ => (Fault.failsOnly_sorted _).bind fun subjects _ =>
    .bind (.mapM fun subject _ => .bind (.mapM fun x _ =>
      g.failsOnly_exclusionPair subject x.1 x.2) fun _ _ => .ok _) fun _ _ => .ok _

end Exclusions

section Circularities

/-- Circles of dependencies are found without going down into rules. -/
theorem failsOnly_circularities (g : PolicyGraph) :
    FailsOnly (Fault.IsInner endless) g.circularities := by
  have harrange : ∀ ns, FailsOnly (Fault.IsInner endless) (arrangeCycle ns) := by
    intro ns
    unfold arrangeCycle
    split
    · exact .ok _
    · split
      · exact .ok _
      · exact .error ⟨rfl, nofun⟩
  have hnames : ∀ ns, FailsOnly (Fault.IsInner endless) (nameTexts ns) := by
    intro ns
    unfold nameTexts
    split
    · exact .ok _
    · exact .error ⟨rfl, nofun⟩
  have hcycles : FailsOnly (Fault.IsInner endless) g.cycles := .mapM fun _ _ => harrange _
  exact hcycles.bind fun cycles _ => .mapM fun cycle _ =>
    .bind (.mapM fun policy _ => g.failsOnly_clausesOf policy) fun _ _ =>
      (hnames _).bind fun _ _ => .ok _

end Circularities

section Thresholds

theorem failsOnly_arrangeRanges (rs : List Range) :
    FailsOnly (Fault.IsInner endless) (arrangeRanges rs) := by
  unfold arrangeRanges
  split
  · exact .ok _
  · refine Sorting.failsOnly_sort (fun a b => ?_) rs
    unfold Range.startsBefore
    split
    · exact .ok _
    · split
      · exact .ok _
      · split
        · exact .ok _
        · exact Fault.failsOnly_ordered _ _

theorem failsOnly_thresholdPair (subject : Name) (a b : Range) :
    FailsOnly (Fault.IsInner endless) (thresholdPair subject a b) := by
  unfold thresholdPair
  split
  · exact .ok _
  · dsimp only
    split
    · exact .ok _
    · exact .bind ((failsOnly_evidence _).bind fun _ _ => (failsOnly_evidence _).bind fun _ _ =>
        .ok _) fun _ _ => .ok _

theorem failsOnly_sweepRanges (subject : Name) (active rs : List Range) :
    FailsOnly (Fault.IsInner endless) (sweepRanges subject active rs) := by
  induction rs generalizing active with
  | nil => exact .ok _
  | cons a r ih =>
      exact .bind (.mapM fun b _ => failsOnly_thresholdPair subject a b) fun _ _ =>
        (ih _).bind fun _ _ => .ok _

theorem failsOnly_rangeOf? (table : List Demand) (n : Node) :
    FailsOnly (Fault.IsInner endless) (rangeOf? table n) := by
  unfold rangeOf?
  split
  · exact .ok _
  · exact (Literal.failsOnly_condition _).map

theorem failsOnly_incompatibleThresholds (g : PolicyGraph) :
    FailsOnly (Fault.IsInner g.HasEntangled) g.incompatibleThresholds := by
  have htable : FailsOnly (Fault.IsInner g.HasEntangled) g.leafTable :=
    .foldlM fun _ _ hpolicy => (failsOnly_paths_declared hpolicy).bind fun _ _ => .ok _
  exact htable.bind fun table _ => (Fault.failsOnly_sorted _).bind fun subjects _ =>
    .bind (.mapM fun subject _ => .bind (.mapM fun n _ => failsOnly_rangeOf? table n) fun _ _ =>
      (failsOnly_arrangeRanges _).bind fun _ _ => failsOnly_sweepRanges subject _ _)
      fun _ _ => .ok _

end Thresholds

section Impossibilities

theorem failsOnly_implying (c : Constraint) (ls : List Literal) :
    FailsOnly (Fault.IsInner endless) (implying c ls) :=
  .filterM fun l _ => l.failsOnly_condition.bind fun d _ => d.failsOnly_implies _

theorem failsOnly_impossibilityPair (policy : Name) (entry : Nat) (i : Impossibility)
    (s : TableSearch) (p : Literal × Literal) :
    FailsOnly (Fault.IsInner endless) (impossibilityPair policy entry i s p) := by
  unfold impossibilityPair
  dsimp only
  split
  · exact .ok _
  · exact .bind (p.1.failsOnly_describe.bind fun _ _ => p.2.failsOnly_describe.bind fun _ _ =>
      (failsOnly_evidence _).bind fun _ _ => (failsOnly_evidence _).bind fun _ _ => .ok _)
      fun _ _ => .ok _

theorem failsOnly_impossibilityEntry (policy : Name) (ls : List Literal) (s : TableSearch)
    (entry : Impossibility × Nat) :
    FailsOnly (Fault.IsInner endless) (impossibilityEntry policy ls s entry) := by
  unfold impossibilityEntry
  dsimp only
  split
  · exact .ok _
  · refine (failsOnly_implying _ ls).bind fun firsts _ => ?_
    split
    · exact .ok _
    · exact (failsOnly_implying _ ls).bind fun seconds _ =>
        .foldlM fun s x _ => failsOnly_impossibilityPair policy _ _ s x

theorem failsOnly_impossibilities (table : List Impossibility) (g : PolicyGraph) :
    FailsOnly (Fault.IsInner g.HasEntangled) (g.impossibilities table) :=
  .map (.foldlM fun _ policy hpolicy => (failsOnly_paths_declared hpolicy).bind fun _ _ =>
    .foldlM fun _ p _ => .foldlM fun s entry _ =>
      failsOnly_impossibilityEntry policy p.literals s entry)

end Impossibilities

section Reports

variable {table : List Impossibility}

/-- A pass gives its candidates, unless a declared policy is entangled. -/
theorem failsOnly_candidates (table : List Impossibility) (g : PolicyGraph) (k : ConflictKind) :
    FailsOnly (Fault.IsInner g.HasEntangled) (g.candidates table k) := by
  cases k with
  | contradiction => exact g.failsOnly_contradictions
  | exclusion => exact g.failsOnly_exclusions
  | circularity => exact g.failsOnly_circularities
  | incompatibleThreshold => exact g.failsOnly_incompatibleThresholds
  | impossibility => exact failsOnly_impossibilities table g

theorem failsOnly_conflict (g : PolicyGraph) (c : Candidate) :
    FailsOnly (Fault.IsInner endless) (c.conflict g) := by
  have hid : FailsOnly (Fault.IsInner endless) c.conflictId := by
    unfold Candidate.conflictId
    split
    · exact .ok _
    · exact .error ⟨rfl, nofun⟩
  exact hid.bind fun _ _ => (Fault.failsOnly_sorted _).bind fun _ _ =>
    (Fault.failsOnly_sorted _).bind fun _ _ => Fault.failsOnly_ofChecked _

/-- Policies that share no scope are told apart from those of which this is not known. -/
theorem failsOnly_checkScope (g : PolicyGraph) (entities : Bool) (first second : Name) :
    FailsOnly (fun f => isScopeFault f = true ∨ f.IsInner endless)
      (g.checkScope entities first second) := by
  have inner {α : Type} {x : Except Fault α} (h : FailsOnly (Fault.IsInner endless) x) :
      FailsOnly (fun f => isScopeFault f = true ∨ f.IsInner endless) x := h.imp fun _ => .inr
  have hentity : ∀ policy, FailsOnly (Fault.IsInner endless) (g.entityOf policy) := by
    intro policy
    unfold entityOf
    split
    · exact .ok _
    · exact .error ⟨rfl, nofun⟩
  unfold checkScope
  split
  · exact .ok _
  refine (inner (g.failsOnly_linkedBy _ _)).bind fun links _ => ?_
  dsimp only
  split
  · exact (inner (Fault.failsOnly_sorted _)).bind fun _ _ => .bind (.error (.inl rfl)) nofun
  split
  · refine (inner (hentity _)).bind fun a _ => (inner (hentity _)).bind fun b _ => ?_
    split
    · exact (inner (Fault.failsOnly_sorted _)).bind fun _ _ => .error (.inl rfl)
    · exact .ok _
  · exact .ok _

theorem failsOnly_receive (g : PolicyGraph) (r : PassResult) (c : Candidate) :
    FailsOnly (Fault.IsInner endless) (g.receive r c).outcome := by
  have hscope : FailsOnly (fun f => isScopeFault f = true ∨ f.IsInner endless)
      (c.checkScope g) := by
    unfold Candidate.checkScope
    split
    · exact .error (.inr ⟨rfl, nofun⟩)
    · exact .bind ((Fault.failsOnly_sorted _).imp fun _ => .inr) fun ps _ =>
        .forM fun x _ => g.failsOnly_checkScope _ x.1 x.2
  unfold receive
  split
  · next f hf =>
    split
    · exact .ok _
    · next hno => exact .error ((hscope f hf).resolve_left hno)
  · exact (g.failsOnly_conflict c).map

theorem failsOnly_runPass (table : List Impossibility) (g : PolicyGraph) (k : ConflictKind) :
    FailsOnly (Fault.IsInner g.HasEntangled) (g.runPass table k).outcome := by
  have hall : ∀ (cs : List Candidate) (r : PassResult),
      FailsOnly (Fault.IsInner g.HasEntangled) (g.receiveAll r cs).outcome := by
    intro cs
    induction cs with
    | nil => exact fun r => .ok r
    | cons c cs ih =>
        intro r
        rw [receiveAll, Logged.outcome_bind]
        exact (g.failsOnly_receive r c).bind fun r _ => ih r
  rw [runPass, Logged.outcome_bind]
  refine (failsOnly_candidates table g k).bind fun cs _ => ?_
  rw [Logged.outcome_bind]
  exact (hall cs _).bind fun _ _ => .ok _

/-- A run gives its report, unless a declared policy is entangled; what else keeps it from one is not
reported. -/
theorem failsOnly_detect (table : List Impossibility) (passes : Option (List ConflictKind))
    (stopAfter : Option Nat) (g : PolicyGraph) :
    FailsOnly (Fault.IsInner g.HasEntangled) (g.detect table passes stopAfter).outcome := by
  have hresults : ∀ ks, FailsOnly (Fault.IsInner g.HasEntangled) (g.results table ks) := fun ks =>
    .mapM fun k _ => failsOnly_runPass table g k
  rw [outcome_detect]
  cases stopAfter with
  | none => rw [outcome_runPasses]; exact (hresults _).map.map
  | some n => rw [outcome_runPasses_some]; exact (hresults _).map.map

/-- A run of all passes gives no report where a declared policy is entangled. -/
theorem endsUnless_detect (table : List Impossibility) (g : PolicyGraph) :
    EndsUnless g.HasEntangled (g.detect table none none).outcome := by
  refine .of_failsOnly (failsOnly_detect table none none g) fun r hr => ?_
  rw [outcome_detect_none] at hr
  obtain ⟨rs, hrs, -⟩ := map_eq_ok.mp hr
  obtain ⟨s, hs⟩ := exists_ok_of_mapM hrs (x := .contradiction) (by decide)
  rw [runPass, Logged.outcome_bind] at hs
  obtain ⟨cs, hcs, -⟩ := bind_eq_ok.mp hs
  exact not_hasEntangled_of_contradictions hcs

end Reports

end PolicyGraph
end Eligibility
