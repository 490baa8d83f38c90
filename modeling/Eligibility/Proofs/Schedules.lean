import Eligibility.Proofs.Circularities
import Eligibility.Proofs.Identifiers
/-!
# Reports of several passes

**Parts.**  Conflicts of different kinds have different identifiers, unless digests collide.  The
report of several passes is therefore put together from the reports of the single passes, and it
is a part of the report of all of them.

**Schedules.**  The order in which passes end is not seen in the report.  A run that is stopped
between two passes reports what the passes before it report.

**Results.**
* `assemble_eq_of_perm`: results in any order make one report.
* `IsPutTogether`: a report and those of its single passes.
* `detect_parts`: reports of single passes, of all workers and of stopped runs.
-/

namespace Eligibility

namespace PolicyGraph

variable {table : List Impossibility} {g : PolicyGraph} {ks : List ConflictKind}
variable {rs : List PassResult}

section Selections

/-- Of a list without repetitions the members of a part, in their order, are the part. -/
theorem filter_mem_eq_of_sublist {xs ys : List ConflictKind} (h : ys.Sublist xs)
    (hnodup : xs.Nodup) : (xs.filter fun k => ys.contains k) = ys := by
  induction h with
  | slnil => rfl
  | @cons ys xs x hsub ih =>
      obtain ⟨hx, hnodup⟩ := List.nodup_cons.mp hnodup
      have hnot : ¬ ys.contains x = true := by simpa using fun hy => hx (hsub.subset hy)
      rw [List.filter_cons_of_neg hnot, ih hnodup]
  | @cons_cons ys xs x hsub ih =>
      obtain ⟨hx, hnodup⟩ := List.nodup_cons.mp hnodup
      rw [List.filter_cons_of_pos (by simp)]
      have hrest : (xs.filter fun k => (x :: ys).contains k) =
          xs.filter fun k => ys.contains k := by
        refine List.filter_congr fun y hy => ?_
        have hne : y ≠ x := fun he => hx (he ▸ hy)
        simp [hne]
      rw [hrest, ih hnodup]

theorem selectedPasses_sublist (passes : Option (List ConflictKind)) :
    (selectedPasses passes).Sublist ConflictKind.all := by
  cases passes with
  | none => exact List.Sublist.refl _
  | some ks => exact List.filter_sublist

theorem nodup_selectedPasses (passes : Option (List ConflictKind)) :
    (selectedPasses passes).Nodup :=
  List.Nodup.sublist (selectedPasses_sublist passes) (by decide)

theorem mem_selectedPasses {S : List ConflictKind} {k : ConflictKind} :
    k ∈ selectedPasses (some S) ↔ k ∈ S := by
  have hall : k ∈ ConflictKind.all := by cases k <;> decide
  simp [selectedPasses, hall]

/-- Passes in their fixed order are selected as they are. -/
theorem selectedPasses_of_sublist {ks : List ConflictKind} (h : ks.Sublist ConflictKind.all) :
    selectedPasses (some ks) = ks :=
  filter_mem_eq_of_sublist h (by decide)

theorem selectedPasses_congr {S T : List ConflictKind} (h : ∀ k, k ∈ T ↔ k ∈ S) :
    selectedPasses (some T) = selectedPasses (some S) :=
  List.filter_congr fun k _ => by simp [h]

end Selections

section Reports

/-- Results of which no two share an identifier of a conflict. -/
def AreApart (rs : List PassResult) : Prop :=
  rs.Pairwise fun r s => ∀ x ∈ r.conflicts, ∀ y ∈ s.conflicts, x.id ≠ y.id

theorem AreApart.perm {rs' : List PassResult} (h : AreApart rs) (hperm : rs.Perm rs') :
    AreApart rs' :=
  List.Pairwise.perm h hperm fun hrs x hx y hy => (hrs y hy x hx).symm

/-- The conflicts of different passes have different identifiers, unless digests collide. -/
theorem areApart_of_results (hdigests : g.HasDistinctDigests table ConflictKind.all)
    (hnodup : ks.Nodup) (hrs : g.results table ks = .ok rs) : AreApart rs := by
  have hall := Attempt.mapM_eq_ok.mp hrs
  have hmem : ∀ k : ConflictKind, k ∈ ConflictKind.all := fun k => by cases k <;> decide
  refine Attempt.pairwise_right hall hnodup fun k l r s hr hs hne x hx y hy hid => ?_
  obtain ⟨c, hc, hcx⟩ := ((isOf_of_runPass hr).conflicts x).mp hx
  obtain ⟨d, hd, hdy⟩ := ((isOf_of_runPass hs).conflicts y).mp hy
  obtain ⟨xs, hxs, hxid⟩ := exists_identify hc hcx
  obtain ⟨ys, hys, hyid⟩ := exists_identify hd hdy
  have hkey := hdigests k (hmem k) l (hmem l) c d xs ys hc hd hxs hys (by rw [← hxid, ← hyid, hid])
  exact hne (Conflict.key_eq_iff.mp hkey).1

/-- The conflicts of a report are those of its results, merged one by one. -/
theorem conflicts_assemble_perm (h : AreApart rs) (stopped : Bool) :
    (assemble rs stopped).conflicts.Perm
      (rs.flatMap fun r => (assemble [r] false).conflicts) := by
  refine (List.mergeSort_perm _ _).trans ?_
  rw [firstConflicts_flatMap h]
  refine List.Perm.flatMap_left rs fun r _ => ?_
  simpa [assemble] using (List.mergeSort_perm (firstConflicts [] r.conflicts) reportedBefore).symm

theorem pairwise_assemble (rs : List PassResult) (stopped : Bool) :
    (assemble rs stopped).conflicts.Pairwise ReportedFirst :=
  pairwise_sortConflicts nodup_firstConflicts

theorem nodup_assemble (rs : List PassResult) (stopped : Bool) :
    ((assemble rs stopped).conflicts.map Conflict.id).Nodup :=
  ((List.mergeSort_perm _ _).map _).nodup_iff.mpr nodup_firstConflicts

/-- Reports whose conflicts are the same up to order have them in the same order. -/
theorem eq_of_perm_of_pairwise {xs ys : List Conflict} (h : xs.Perm ys)
    (hxs : xs.Pairwise ReportedFirst) (hys : ys.Pairwise ReportedFirst) : xs = ys :=
  h.eq_of_pairwise (fun _ _ _ _ hab hba => absurd hba hab.asymm) hxs hys

/-- Results in any order make one report. -/
theorem assemble_eq_of_perm {rs' : List PassResult} (h : AreApart rs) (hperm : rs.Perm rs')
    (stopped : Bool) : assemble rs stopped = assemble rs' stopped := by
  have hconflicts : (assemble rs stopped).conflicts = (assemble rs' stopped).conflicts :=
    eq_of_perm_of_pairwise (((conflicts_assemble_perm h stopped).trans
      (hperm.flatMap_right _)).trans (conflicts_assemble_perm (h.perm hperm) stopped).symm)
      (pairwise_assemble _ _) (pairwise_assemble _ _)
  have hsuppressed : (rs.map PassResult.suppressed).foldr (· + ·) 0 =
      (rs'.map PassResult.suppressed).foldr (· + ·) 0 :=
    (hperm.map _).foldr_eq 0
  have hpasses : (ConflictKind.all.filter fun k => rs.any fun r => r.kind = k) =
      ConflictKind.all.filter fun k => rs'.any fun r => r.kind = k :=
    List.filter_congr fun k _ => hperm.any_eq
  unfold assemble at hconflicts ⊢
  rw [ConflictReport.mk.injEq]
  exact ⟨hconflicts, congrArg _ hsuppressed, hpasses, rfl⟩

end Reports

section Parts

/-- A report of selected passes that is put together from the reports of the single passes. -/
structure IsPutTogether (S : List ConflictKind) (single : ConflictKind → ConflictReport)
    (r : ConflictReport) : Prop where
  conflicts : r.conflicts.Perm ((selectedPasses (some S)).flatMap fun k => (single k).conflicts)
  ordered : r.conflicts.Pairwise ReportedFirst
  distinct : (r.conflicts.map Conflict.id).Nodup
  suppressed : r.suppressed = ((selectedPasses (some S)).map fun k => (single k).suppressed).sum
  passes : r.passes = ConflictKind.all.filter fun k => k ∈ S
  stopped : r.stopped = false

variable {S : List ConflictKind}

theorem outcome_detect_single (k : ConflictKind) :
    (g.detect table (some [k]) none).outcome =
      (g.runPass table k).outcome.map fun r => assemble [r] false := by
  have hselected : selectedPasses (some [k]) = [k] := by cases k <;> rfl
  rw [outcome_detect_none, hselected, results, List.mapM_cons]
  cases (g.runPass table k).outcome <;> rfl

/-- Several passes end in a report exactly if each of them does alone. -/
theorem exists_detect_iff : (∃ r, (g.detect table (some S) none).outcome = .ok r) ↔
    ∀ k ∈ S, ∃ r, (g.detect table (some [k]) none).outcome = .ok r := by
  have hresults : (∃ r, (g.detect table (some S) none).outcome = .ok r) ↔
      ∃ rs, g.results table (selectedPasses (some S)) = .ok rs := by
    simp only [outcome_detect_none, Attempt.map_eq_ok]
    exact ⟨fun ⟨_, rs, hrs, _⟩ => ⟨rs, hrs⟩, fun ⟨rs, hrs⟩ => ⟨_, rs, hrs, rfl⟩⟩
  rw [hresults]
  constructor
  · rintro ⟨rs, hrs⟩ k hk
    obtain ⟨r, hr⟩ := Attempt.exists_ok_of_mapM hrs (mem_selectedPasses.mpr hk)
    exact ⟨_, by rw [outcome_detect_single, hr]; rfl⟩
  · intro hall
    obtain ⟨rs, hrs, -⟩ := Attempt.exists_mapM (R := fun _ _ => True) fun k hk => by
      obtain ⟨r, hr⟩ := hall k (mem_selectedPasses.mp hk)
      rw [outcome_detect_single] at hr
      obtain ⟨x, hx, -⟩ := Attempt.map_eq_ok.mp hr
      exact ⟨x, hx, trivial⟩
    exact ⟨rs, hrs⟩

/-- The results of passes pair off with their reports. -/
theorem forall₂_single {single : ConflictKind → ConflictReport} (hrs : g.results table ks = .ok rs)
    (hsingle : ∀ k ∈ ks, (g.detect table (some [k]) none).outcome = .ok (single k)) :
    List.Forall₂ (fun k r => r.kind = k ∧ assemble [r] false = single k) ks rs := by
  have hall := List.forall₂_and_left _ _ |>.mpr ⟨hsingle, Attempt.mapM_eq_ok.mp hrs⟩
  refine hall.imp fun k r ⟨hk, hr⟩ => ⟨(isOf_of_runPass hr).kind, ?_⟩
  rw [outcome_detect_single, hr] at hk
  exact Except.ok.inj hk

theorem sum_suppressed (rs : List PassResult) :
    ((assemble rs false).suppressed : Int) = (rs.map fun r => (r.suppressed : Int)).sum := by
  induction rs with
  | nil => rfl
  | cons r rs ih => rw [List.map_cons, List.sum_cons, ← ih, assemble, assemble]; simp

/-- The report of several passes is put together from those of the single passes. -/
theorem isPutTogether_of_detect (hdigests : g.HasDistinctDigests table ConflictKind.all)
    {single : ConflictKind → ConflictReport} {r : ConflictReport}
    (hr : (g.detect table (some S) none).outcome = .ok r)
    (hsingle : ∀ k ∈ S, (g.detect table (some [k]) none).outcome = .ok (single k)) :
    IsPutTogether S single r := by
  rw [outcome_detect_none] at hr
  obtain ⟨rs, hrs, rfl⟩ := Attempt.map_eq_ok.mp hr
  have hapart := areApart_of_results hdigests (nodup_selectedPasses _) hrs
  have hall := forall₂_single hrs fun k hk => hsingle k (mem_selectedPasses.mp hk)
  have hreports : rs.map (fun r => assemble [r] false) = (selectedPasses (some S)).map single :=
    Attempt.map_eq_map_of_forall₂ (hall.imp fun _ _ h => h.2)
  refine ⟨?_, pairwise_assemble _ _, nodup_assemble _ _, ?_, ?_, rfl⟩
  · have hblocks : (rs.flatMap fun r => (assemble [r] false).conflicts) =
        (selectedPasses (some S)).flatMap fun k => (single k).conflicts := by
      rw [← List.flatMap_map, hreports, List.flatMap_map]
    exact hblocks ▸ conflicts_assemble_perm hapart false
  · have hsums : (selectedPasses (some S)).map (fun k => (single k).suppressed) =
        rs.map fun r => (r.suppressed : Int) := by
      have := congrArg (List.map ConflictReport.suppressed) hreports
      simpa [assemble, Function.comp_def] using this.symm
    rw [hsums]
    exact sum_suppressed rs
  · refine List.filter_congr fun k _ => ?_
    have hkinds : rs.map PassResult.kind = selectedPasses (some S) := by
      simpa using Attempt.map_eq_map_of_forall₂ (k := id) (hall.imp fun _ _ h => h.1)
    rw [← Bool.coe_iff_coe]
    simp only [List.any_eq_true, decide_eq_true_eq]
    rw [← mem_selectedPasses, ← hkinds, List.mem_map]

/-- The report of several passes is the part of the full report that is of their kinds. -/
theorem conflicts_eq_filter (hdigests : g.HasDistinctDigests table ConflictKind.all)
    {r full : ConflictReport} (hr : (g.detect table (some S) none).outcome = .ok r)
    (hfull : (g.detect table none none).outcome = .ok full) :
    r.conflicts = full.conflicts.filter fun x => x.kind ∈ S := by
  have hmem : ∀ (passes : Option (List ConflictKind)) (r : ConflictReport),
      (g.detect table passes none).outcome = .ok r → r.conflicts.Pairwise ReportedFirst ∧
        r.conflicts.Nodup ∧ ∀ x, x ∈ r.conflicts ↔ x.kind ∈ selectedPasses passes ∧
          ∃ s, (g.runPass table x.kind).outcome = .ok s ∧ x ∈ firstConflicts [] s.conflicts := by
    intro passes r hr
    rw [outcome_detect_none] at hr
    obtain ⟨rs, hrs, rfl⟩ := Attempt.map_eq_ok.mp hr
    have hall := Attempt.mapM_eq_ok.mp hrs
    refine ⟨pairwise_assemble _ _, (nodup_assemble _ _).of_map, fun x => ?_⟩
    have hblocks := conflicts_assemble_perm
      (areApart_of_results hdigests (nodup_selectedPasses passes) hrs) false
    rw [hblocks.mem_iff, List.mem_flatMap]
    have hblock : ∀ s : PassResult, x ∈ (assemble [s] false).conflicts ↔
        x ∈ firstConflicts [] s.conflicts := fun s => by
      simp [assemble]
    simp only [hblock]
    constructor
    · rintro ⟨s, hs, hx⟩
      obtain ⟨k, hk, hks⟩ := Attempt.exists_left hall hs
      obtain rfl := (isOf_of_runPass hks).kinds x (mem_of_mem_firstConflicts hx)
      exact ⟨hk, s, hks, hx⟩
    · rintro ⟨hk, s, hs, hx⟩
      obtain ⟨t, ht, hts⟩ := Attempt.exists_right hall hk
      obtain rfl := Except.ok.inj (hs.symm.trans hts)
      exact ⟨s, ht, hx⟩
  obtain ⟨hordered, hnodup, hspec⟩ := hmem _ r hr
  obtain ⟨hordered', hnodup', hspec'⟩ := hmem _ full hfull
  refine eq_of_perm_of_pairwise ?_ hordered (hordered'.filter _)
  refine (List.perm_ext_iff_of_nodup hnodup (hnodup'.filter _)).mpr fun x => ?_
  have hall : x.kind ∈ selectedPasses none := by
    cases x.kind <;> decide
  rw [List.mem_filter, hspec, hspec', mem_selectedPasses, decide_eq_true_eq]
  tauto

end Parts

section Schedules

variable {S : List ConflictKind} {workers : Int} {s : Schedule}

theorem detectBy_of_le (hworkers : workers ≤ 1) (passes : Option (List ConflictKind))
    (stopAfter : Option Nat) :
    g.detectBy workers s table passes stopAfter = g.detect table passes stopAfter := by
  have hone : ¬ (1 < workers ∧ 1 < (selectedPasses passes).length) := by omega
  rw [detectBy, runBy, if_neg hone, detect]

/-- Workers make the report that the passes make one after the other, in whatever order they
end. -/
theorem detectBy_eq_ok_iff (hdigests : g.HasDistinctDigests table ConflictKind.all)
    {r : ConflictReport} : (g.detectBy workers s table (some S) none).outcome = .ok r ↔
      (g.detect table (some S) none).outcome = .ok r := by
  rw [outcome_detectBy, outcome_detect_none, runBy]
  split
  · rw [outcome_gatherPasses]
    have hperm := s.perm (selectedPasses (some S))
    have hnodup := nodup_selectedPasses (some S)
    simp only [Attempt.map_eq_ok, exists_exists_and_eq_and]
    constructor
    · rintro ⟨rs, hrs, rfl⟩
      obtain ⟨rs', hrs', hrsperm⟩ := Attempt.exists_mapM_of_perm hperm hrs
      exact ⟨rs', hrs', assemble_eq_of_perm (areApart_of_results hdigests hnodup hrs') hrsperm _⟩
    · rintro ⟨rs, hrs, rfl⟩
      obtain ⟨rs', hrs', hrsperm⟩ := Attempt.exists_mapM_of_perm hperm.symm hrs
      exact ⟨rs', hrs',
        (assemble_eq_of_perm (areApart_of_results hdigests hnodup hrs) hrsperm.symm _).symm⟩
  · rw [outcome_runPasses]
    simp only [Attempt.map_eq_ok, exists_exists_and_eq_and]

/-- A run that is stopped before the end reports what its first passes report. -/
theorem outcome_detect_stopped {n : Nat} (hn : n < (selectedPasses (some S)).length) :
    (g.detect table (some S) (some n)).outcome =
      (g.detect table (some ((selectedPasses (some S)).take n)) none).outcome.map
        fun r => { r with stopped := true } := by
  have htake : selectedPasses (some ((selectedPasses (some S)).take n)) =
      (selectedPasses (some S)).take n :=
    selectedPasses_of_sublist ((List.take_sublist _ _).trans (selectedPasses_sublist (some S)))
  rw [outcome_detect, outcome_runPasses_some, outcome_detect_none, htake]
  cases g.results table ((selectedPasses (some S)).take n) with
  | error f => rfl
  | ok rs => simp [hn, assemble]

/-- Unless digests collide, the report of a selection of passes depends on the set of passes only
and is put together from the reports of the single passes; it is the part of the full report that
is of their kinds, the same for every number of workers and every order in which passes end; and a
run that is stopped reports what its first passes report. -/
theorem detect_parts (hdigests : g.HasDistinctDigests table ConflictKind.all)
    (S : List ConflictKind) :
    (∀ T stopAfter, (∀ k, k ∈ T ↔ k ∈ S) →
      g.detect table (some T) stopAfter = g.detect table (some S) stopAfter) ∧
    ((∃ r, (g.detect table (some S) none).outcome = .ok r) ↔
      ∀ k ∈ S, ∃ r, (g.detect table (some [k]) none).outcome = .ok r) ∧
    (∀ r single, (g.detect table (some S) none).outcome = .ok r →
      (∀ k ∈ S, (g.detect table (some [k]) none).outcome = .ok (single k)) →
        IsPutTogether S single r) ∧
    (∀ r full, (g.detect table (some S) none).outcome = .ok r →
      (g.detect table none none).outcome = .ok full →
        r.conflicts = full.conflicts.filter fun x => x.kind ∈ S) ∧
    (∀ workers s r, (g.detectBy workers s table (some S) none).outcome = .ok r ↔
      (g.detect table (some S) none).outcome = .ok r) ∧
    (∀ workers s n, workers ≤ 1 → n < (selectedPasses (some S)).length →
      (g.detectBy workers s table (some S) (some n)).outcome =
        (g.detect table (some ((selectedPasses (some S)).take n)) none).outcome.map
          fun r => { r with stopped := true }) ∧
    ∀ cfg payload, (RuleSet.compile cfg payload).outcome = .ok g → (∀ i ∈ table, i.IsFitting) →
      ∃ r, (g.detect table (some S) none).outcome = .ok r := by
  refine ⟨fun T stopAfter hsame => ?_, exists_detect_iff,
    fun r single hr hsingle => isPutTogether_of_detect hdigests hr hsingle,
    fun r full hr hfull => conflicts_eq_filter hdigests hr hfull,
    fun workers s r => detectBy_eq_ok_iff hdigests, fun workers s n hworkers hn => ?_,
    fun cfg payload hg htable => ?_⟩
  · rw [detect, detect, selectedPasses_congr hsame]
  · rw [detectBy_of_le hworkers, outcome_detect_stopped hn]
  · obtain ⟨p, h, hnamed⟩ := exists_named_plan hg
    have hsound : ∀ k ∈ selectedPasses (some S), g.PassIsSound table k :=
      fun k _ => h.passIsSound hnamed htable k
    obtain ⟨r, hr, -⟩ := h.isLegible.exists_reportOf hsound
    exact ⟨r, hr⟩

/-- Candidates of one kind about the same nodes have one text. -/
theorem HasNoCollision.hasDistinctDigests (h : g.HasNoCollision table) (ks : List ConflictKind) :
    g.HasDistinctDigests table ks := by
  intro k _ l _ c d xs ys hc hd hxs hys hid
  have hof : ∀ {k : ConflictKind} {c : Candidate} {xs : List String}, g.Gives table k c →
      c.nodes = xs.map .str → c.kind = k ∧ c.conflictId = .ok (Conflict.identify k xs) := by
    intro k c xs hc hxs
    obtain ⟨cs, hcs, hc⟩ := hc
    have hkind := (isOver_of_candidates hcs c hc).kind
    exact ⟨hkind, by rw [Candidate.conflictId, hxs, Name.texts?_strs, hkind]⟩
  obtain ⟨hck, hcid⟩ := hof hc hxs
  obtain ⟨hdk, hdid⟩ := hof hd hys
  obtain ⟨hkind, hnodes⟩ := h k l c d _ hc hd hcid (by rw [hdid, hid])
  refine Conflict.key_eq_iff.mpr ⟨by rw [← hck, hkind, hdk], Conflict.pieces_congr fun s => ?_⟩
  have hs := hnodes (.str s)
  rw [hxs, hys] at hs
  simpa using hs

/-- A cycle of two policies is reported by two workers of which the second is done first, and not
by a run that is stopped before dependencies are looked at. -/
theorem detect_parts_round : ∃ g r r',
    (RuleSet.compile .standard (roundPayload ["a", "b"])).outcome = .ok g ∧
      (g.detectBy 2 .reversed Impossibility.standard (some ConflictKind.all) none).outcome = .ok r ∧
      NamesCycle r ["a", "b"] ∧ r.conflicts.Pairwise ReportedFirst ∧
      (g.detectBy 1 .reversed Impossibility.standard (some ConflictKind.all) (some 2)).outcome =
        .ok r' ∧
      r'.conflicts = r.conflicts.filter (fun x => x.kind ∈ [.contradiction, .exclusion]) ∧
      r'.stopped = true := by
  obtain ⟨g, hvalid, hbuild, h⟩ : ∃ g, (roundRules ["a", "b"]).validate .standard = .ok _ ∧
      ((roundRules ["a", "b"]).build .standard).outcome = .ok g ∧
      g.IsDrawnFrom .standard (roundPlan ["a", "b"]) :=
    exists_build (by decide +kernel) rfl (by decide +kernel)
  have hg : (RuleSet.compile .standard (roundPayload ["a", "b"])).outcome = .ok g :=
    (outcome_compile rfl hvalid).trans hbuild
  have hcycle : IsCycle g.Requires ["a", "b"] := by
    refine ⟨by decide, "a", ["b"], rfl, ?_⟩
    simp [h.requires_round, roundLinks]
  have hnamed : AreNamed (roundPlan ["a", "b"]).documents := by decide
  have hids := h.hasNoCollision_round hnamed Impossibility.standard_fits hcycle
  have hdigests := hids.hasDistinctDigests ConflictKind.all
  obtain ⟨-, -, hparts, -, hworkers, hstopped, -⟩ := detect_parts hdigests ConflictKind.all
  obtain ⟨-, -, -, hfilter, -, -, hexists⟩ :=
    detect_parts hdigests [.contradiction, .exclusion]
  obtain ⟨r, hr, hreport⟩ :=
    h.isLegible.exists_report (h.passIsSound hnamed Impossibility.standard_fits)
  obtain ⟨r', hr'⟩ := hexists _ _ hg Impossibility.standard_fits
  have hlinked : ∀ a ∈ ["a", "b"], ∀ b ∈ ["a", "b"], a ≠ b → g.IsLinked a b := by
    intro a ha b hb hne
    rcases hcycle.related_of_length_le (by decide) ha hb hne with hab | hba
    · exact isLinked_of_requires hab
    · exact (isLinked_of_requires hba).symm
  have hall : (g.detect Impossibility.standard (some ConflictKind.all) none).outcome = .ok r := hr
  have hsingles : ∀ k, ∃ r, (g.detect Impossibility.standard (some [k]) none).outcome = .ok r := by
    intro k
    exact exists_detect_iff.mp ⟨r, hall⟩ k (by cases k <;> decide)
  choose single hsingle using hsingles
  refine ⟨g, r, { r' with stopped := true }, hg, (hworkers 2 .reversed r).mpr hall,
    hreport.namesCycle_of_isLinked h.isLegible (h.hasNamedSources hnamed)
      Impossibility.standard_fits hids hcycle hlinked,
    (hparts r single hall fun k _ => hsingle k).ordered, ?_, hfilter r' r hr' hr, rfl⟩
  rw [hstopped 1 .reversed 2 (le_refl 1) (by decide)]
  exact congrArg _ hr'

end Schedules

end PolicyGraph
end Eligibility
