import Eligibility.Conflict.Workers
import Eligibility.Proofs.Origins
import Eligibility.Proofs.Reporting
/-!
# Passes and their report

**Runs.**  A pass only reads the graph, so that what it gives does not depend on the passes that
ran before it.  A run of several passes is a traversal, and a run that is stopped is a traversal of
the first of them.

**Merging.**  Of the conflicts with one identifier the first stands.  Passes of different kinds give
conflicts of different identifiers, so that each is merged on its own, and conflicts of different
identifiers have one order of reporting.

**Results.**
* `outcome_runPasses`, `outcome_runPasses_some`, `outcome_gatherPasses`: runs as traversals.
* `isOf_of_runPass`: what a pass that gives a result found.
* `firstConflicts_flatMap`: results are merged one by one where they share no identifier.
* `sortConflicts_eq_of_perm`: conflicts of different identifiers have one order.
-/

namespace Eligibility

namespace Logged

variable {α β : Type}

theorem outcome_bind (x : Logged α) (f : α → Logged β) :
    (x.bind f).outcome = x.outcome >>= fun a => (f a).outcome := by
  obtain ⟨es, r⟩ := x
  cases r <;> rfl

end Logged

/-- The kind and the identifier of the conflict of a candidate. -/
theorem Candidate.of_conflict {g : PolicyGraph} {c : Candidate} {x : Conflict}
    (h : c.conflict g = .ok x) : x.kind = c.kind ∧ c.conflictId = .ok x.id := by
  obtain ⟨id, hid, h⟩ := Attempt.bind_eq_ok.mp h
  obtain ⟨clauses, -, h⟩ := Attempt.bind_eq_ok.mp h
  obtain ⟨policies, -, h⟩ := Attempt.bind_eq_ok.mp h
  cases hcs : texts "involved_clauses" clauses with
  | flawed fs => cases hps : texts "involved_policies" policies <;> rw [hcs, hps] at h <;> cases h
  | ok cs =>
      cases hps : texts "involved_policies" policies with
      | flawed fs => rw [hcs, hps] at h; cases h
      | ok ps =>
          rw [hcs, hps] at h
          obtain rfl := Except.ok.inj h
          exact ⟨rfl, hid⟩

namespace PolicyGraph

variable {table : List Impossibility} {g : PolicyGraph} {k : ConflictKind}

section Runs

/-- The results of passes that all run to their ends. -/
def results (table : List Impossibility) (g : PolicyGraph) (ks : List ConflictKind) :
    Except Fault (List PassResult) :=
  ks.mapM fun k => (g.runPass table k).outcome

/-- A run that is not stopped goes through all passes. -/
theorem outcome_runPasses (ks : List ConflictKind) :
    (g.runPasses table none ks).outcome = (g.results table ks).map (·, false) := by
  induction ks with
  | nil => rfl
  | cons k ks ih =>
      rw [runPasses, if_neg (by simp), Logged.outcome_bind, results, List.mapM_cons]
      cases (g.runPass table k).outcome with
      | error f => rfl
      | ok r =>
          rw [Attempt.ok_bind, Attempt.ok_bind, Logged.outcome_bind, Option.map_none, ih, results]
          cases ks.mapM fun k => (g.runPass table k).outcome <;> rfl

/-- A run that is stopped goes through the passes before. -/
theorem outcome_runPasses_some (n : Nat) (ks : List ConflictKind) :
    (g.runPasses table (some n) ks).outcome =
      (g.results table (ks.take n)).map (·, decide (n < ks.length)) := by
  induction ks generalizing n with
  | nil => simp [runPasses, Logged.pure, results, pure, Except.pure]
  | cons k ks ih =>
      cases n with
      | zero => simp [runPasses, Logged.pure, results, pure, Except.pure]
      | succ n =>
          rw [runPasses, if_neg (by simp), Logged.outcome_bind, results, List.take_succ_cons,
            List.mapM_cons]
          cases (g.runPass table k).outcome with
          | error f => rfl
          | ok r =>
              rw [Attempt.ok_bind, Attempt.ok_bind, Logged.outcome_bind, Option.map_some,
                Nat.add_sub_cancel, ih, results]
              cases (ks.take n).mapM fun k => (g.runPass table k).outcome <;>
                simp [Logged.pure, pure, Except.pure]

/-- Gathering all results goes through the passes as they end. -/
theorem outcome_gatherPasses (ks : List ConflictKind) :
    (g.gatherPasses table none ks).outcome = (g.results table ks).map (·, false) := by
  induction ks with
  | nil => rfl
  | cons k ks ih =>
      rw [gatherPasses, Logged.outcome_bind, results, List.mapM_cons]
      cases (g.runPass table k).outcome with
      | error f => rfl
      | ok r =>
          rw [Attempt.ok_bind, Attempt.ok_bind, if_neg (by simp), Logged.outcome_bind,
            Option.map_none, ih, results]
          cases ks.mapM fun k => (g.runPass table k).outcome <;> rfl

theorem outcome_detect (passes : Option (List ConflictKind)) (stopAfter : Option Nat) :
    (g.detect table passes stopAfter).outcome =
      (g.runPasses table stopAfter (selectedPasses passes)).outcome.map
        fun rs => assemble rs.1 rs.2 := by
  rw [detect, Logged.outcome_bind]
  cases (g.runPasses table stopAfter (selectedPasses passes)).outcome <;> rfl

/-- Detection that is not stopped reports the results of the selected passes. -/
theorem outcome_detect_none (passes : Option (List ConflictKind)) :
    (g.detect table passes none).outcome =
      (g.results table (selectedPasses passes)).map (assemble · false) := by
  rw [outcome_detect, outcome_runPasses]
  cases g.results table (selectedPasses passes) <;> rfl

theorem outcome_detectBy {workers : Int} {s : Schedule} (passes : Option (List ConflictKind))
    (stopAfter : Option Nat) :
    (g.detectBy workers s table passes stopAfter).outcome =
      (g.runBy workers s table stopAfter (selectedPasses passes)).outcome.map
        fun rs => assemble rs.1 rs.2 := by
  rw [detectBy, Logged.outcome_bind]
  cases (g.runBy workers s table stopAfter (selectedPasses passes)).outcome <;> rfl

end Runs

section Results

/-- What a pass found: conflicts of its kind, those of its candidates that are not suppressed. -/
structure PassResult.IsOf (g : PolicyGraph) (table : List Impossibility) (k : ConflictKind)
    (r : PassResult) : Prop where
  kind : r.kind = k
  conflicts : ∀ x, x ∈ r.conflicts ↔ ∃ c, g.Gives table k c ∧ g.Receives c x
  kinds : ∀ x ∈ r.conflicts, x.kind = k

theorem of_receive {r r' : PassResult} {c : Candidate} (h : (g.receive r c).outcome = .ok r') :
    r'.kind = r.kind ∧ ∀ x, x ∈ r'.conflicts ↔ x ∈ r.conflicts ∨ g.Receives c x := by
  unfold receive at h
  unfold Receives
  cases hscope : c.checkScope g with
  | error f =>
      rw [hscope] at h
      dsimp only at h
      split at h
      · obtain rfl := Except.ok.inj h
        exact ⟨rfl, fun x => by simp⟩
      · cases h
  | ok u =>
      rw [hscope] at h
      obtain ⟨y, hy, rfl⟩ := Attempt.map_eq_ok.mp h
      exact ⟨rfl, fun x => by simp [hy, eq_comm]⟩

theorem of_receiveAll {r r' : PassResult} {cs : List Candidate}
    (h : (g.receiveAll r cs).outcome = .ok r') :
    r'.kind = r.kind ∧ ∀ x, x ∈ r'.conflicts ↔ x ∈ r.conflicts ∨ ∃ c ∈ cs, g.Receives c x := by
  induction cs generalizing r with
  | nil =>
      obtain rfl := Except.ok.inj h
      exact ⟨rfl, by simp⟩
  | cons c cs ih =>
      rw [receiveAll, Logged.outcome_bind] at h
      obtain ⟨r1, hr1, h⟩ := Attempt.bind_eq_ok.mp h
      obtain ⟨hkind1, hmem1⟩ := of_receive hr1
      obtain ⟨hkind, hmem⟩ := ih h
      refine ⟨hkind.trans hkind1, fun x => ?_⟩
      rw [hmem, hmem1, List.exists_mem_cons_iff, or_assoc]

/-- The result of a pass is that of its candidates, taken in one by one. -/
theorem runPass_eq_ok {r : PassResult} : (g.runPass table k).outcome = .ok r ↔
    ∃ cs, g.candidates table k = .ok cs ∧
      (g.receiveAll { kind := k } cs).outcome = .ok r := by
  rw [runPass, Logged.outcome_bind, Attempt.bind_eq_ok]
  refine exists_congr fun cs => and_congr_right fun _ => ?_
  rw [Logged.outcome_bind]
  cases (g.receiveAll { kind := k } cs).outcome <;> exact Iff.rfl

/-- A pass that gives a result found the conflicts of its candidates that are not suppressed. -/
theorem isOf_of_runPass {r : PassResult} (h : (g.runPass table k).outcome = .ok r) :
    PassResult.IsOf g table k r := by
  obtain ⟨cs, hcs, hr⟩ := runPass_eq_ok.mp h
  obtain ⟨hkind, hmem⟩ := of_receiveAll hr
  have hspec : ∀ x, x ∈ r.conflicts ↔ ∃ c, g.Gives table k c ∧ g.Receives c x := by
    intro x
    rw [hmem]
    constructor
    · rintro (hx | ⟨c, hc, hx⟩)
      · simp at hx
      · exact ⟨c, ⟨cs, hcs, hc⟩, hx⟩
    · rintro ⟨c, ⟨ds, hds, hc⟩, hx⟩
      obtain rfl := Except.ok.inj (hds.symm.trans hcs)
      exact .inr ⟨c, hc, hx⟩
  refine ⟨hkind, hspec, fun x hx => ?_⟩
  obtain ⟨c, ⟨ds, hds, hc⟩, -, hconflict⟩ := (hspec x).mp hx
  rw [(Candidate.of_conflict hconflict).1, (isOver_of_candidates hds c hc).kind]

end Results

section Merging

variable {seen : List String} {xs ys : List Conflict}

theorem not_mem_of_mem_firstConflicts {x : Conflict} (hx : x ∈ firstConflicts seen xs) :
    x.id ∉ seen := by
  induction xs generalizing seen with
  | nil => simp [firstConflicts] at hx
  | cons y r ih =>
      unfold firstConflicts at hx
      split at hx
      · exact ih hx
      · next hy =>
        rcases List.mem_cons.mp hx with rfl | hx
        · exact hy
        · exact fun hseen => ih hx (List.mem_cons_of_mem _ hseen)

/-- The conflicts that stand have different identifiers. -/
theorem nodup_firstConflicts : ((firstConflicts seen xs).map Conflict.id).Nodup := by
  induction xs generalizing seen with
  | nil => exact List.nodup_nil
  | cons y r ih =>
      unfold firstConflicts
      split
      · exact ih
      · refine List.nodup_cons.mpr ⟨fun hmem => ?_, ih⟩
        obtain ⟨x, hx, hid⟩ := List.mem_map.mp hmem
        exact not_mem_of_mem_firstConflicts hx (hid ▸ List.mem_cons_self)

/-- Which conflicts stand depends on the seen identifiers that occur among them. -/
theorem firstConflicts_congr {seen' : List String}
    (h : ∀ x ∈ xs, x.id ∈ seen ↔ x.id ∈ seen') :
    firstConflicts seen xs = firstConflicts seen' xs := by
  induction xs generalizing seen seen' with
  | nil => rfl
  | cons y r ih =>
      obtain ⟨hy, hr⟩ := List.forall_mem_cons.mp h
      have hmore : ∀ x ∈ r, x.id ∈ y.id :: seen ↔ x.id ∈ y.id :: seen' := fun x hx => by
        rw [List.mem_cons, List.mem_cons, hr x hx]
      unfold firstConflicts
      rw [ih hr, ih hmore]
      simp only [hy]

/-- Of two lists the conflicts of the first stand, and those of the second that share no
identifier with them. -/
theorem firstConflicts_append :
    firstConflicts seen (xs ++ ys) =
      firstConflicts seen xs ++ firstConflicts (xs.map Conflict.id ++ seen) ys := by
  induction xs generalizing seen with
  | nil => rfl
  | cons x r ih =>
      rw [List.cons_append, firstConflicts, firstConflicts, ih, ih, List.map_cons, List.cons_append]
      split
      · next hx =>
        congr 1
        refine firstConflicts_congr fun y _ => ?_
        simp only [List.mem_append, List.mem_cons]
        grind
      · congr 1
        congr 1
        refine firstConflicts_congr fun y _ => ?_
        simp only [List.mem_append, List.mem_cons]
        grind

/-- Results that share no identifier are merged one by one. -/
theorem firstConflicts_flatMap {rs : List PassResult}
    (h : rs.Pairwise fun r s => ∀ x ∈ r.conflicts, ∀ y ∈ s.conflicts, x.id ≠ y.id) :
    firstConflicts [] (rs.flatMap PassResult.conflicts) =
      rs.flatMap fun r => firstConflicts [] r.conflicts := by
  induction h with
  | nil => rfl
  | @cons r rs hr _ ih =>
      rw [List.flatMap_cons, List.flatMap_cons, firstConflicts_append, ← ih]
      congr 1
      refine firstConflicts_congr fun y hy => ?_
      obtain ⟨s, hs, hy⟩ := List.mem_flatMap.mp hy
      simp only [List.append_nil, List.mem_map, List.not_mem_nil, iff_false, not_exists, not_and]
      exact fun x hx => hr s hs x hx y hy

end Merging

section Order

/-- Whether one conflict is reported before another one. -/
def ReportedFirst (a b : Conflict) : Prop :=
  b.severity.rank < a.severity.rank ∨ a.severity.rank = b.severity.rank ∧ a.id < b.id

theorem reportedBefore_trans {a b c : Conflict} (hab : reportedBefore a b = true)
    (hbc : reportedBefore b c = true) : reportedBefore a c = true := by
  simp only [reportedBefore, Bool.or_eq_true, Bool.and_eq_true, decide_eq_true_eq] at *
  rcases hab with hab | ⟨hab, hid⟩
  · rcases hbc with hbc | ⟨hbc, -⟩
    · exact .inl (hbc.trans hab)
    · exact .inl (hbc ▸ hab)
  · rcases hbc with hbc | ⟨hbc, hid'⟩
    · exact .inl (hab ▸ hbc)
    · exact .inr ⟨hab.trans hbc, String.le_trans hid hid'⟩

theorem reportedBefore_total (a b : Conflict) :
    (reportedBefore a b || reportedBefore b a) = true := by
  simp only [reportedBefore, Bool.or_eq_true, Bool.and_eq_true, decide_eq_true_eq]
  rcases Nat.lt_trichotomy a.severity.rank b.severity.rank with h | h | h
  · exact .inr (.inl h)
  · exact (String.le_total a.id b.id).imp (fun hid => .inr ⟨h, hid⟩) fun hid => .inr ⟨h.symm, hid⟩
  · exact .inl (.inl h)

/-- Of two conflicts with different identifiers one is reported first. -/
theorem reportedFirst_of_reportedBefore {a b : Conflict} (h : reportedBefore a b = true)
    (hid : a.id ≠ b.id) : ReportedFirst a b := by
  simp only [reportedBefore, Bool.or_eq_true, Bool.and_eq_true, decide_eq_true_eq] at h
  refine h.imp_right fun h => ⟨h.1, ?_⟩
  by_contra hlt
  exact hid (String.le_antisymm h.2 (String.not_lt.mp hlt))

/-- Conflicts with different identifiers are sorted strictly. -/
theorem pairwise_sortConflicts {xs : List Conflict} (hids : (xs.map Conflict.id).Nodup) :
    (xs.mergeSort reportedBefore).Pairwise ReportedFirst := by
  have hsorted : (xs.mergeSort reportedBefore).Pairwise fun a b => reportedBefore a b = true := by
    refine List.pairwise_mergeSort ?_ reportedBefore_total xs
    exact fun a b c hab hbc => reportedBefore_trans hab hbc
  have hnodup : ((xs.mergeSort reportedBefore).map Conflict.id).Nodup :=
    ((List.mergeSort_perm xs _).map _).nodup_iff.mpr hids
  rw [List.Nodup, List.pairwise_map] at hnodup
  exact hsorted.imp₂ (fun _ _ h hid => reportedFirst_of_reportedBefore h hid) hnodup

theorem ReportedFirst.asymm {a b : Conflict} (hab : ReportedFirst a b) : ¬ ReportedFirst b a := by
  rintro (h | ⟨h, hid⟩) <;> rcases hab with h' | ⟨h', hid'⟩
  · omega
  · omega
  · omega
  · exact String.lt_asymm hid hid'

/-- Conflicts with different identifiers have one order. -/
theorem sortConflicts_eq_of_perm {xs ys : List Conflict} (h : xs.Perm ys)
    (hids : (xs.map Conflict.id).Nodup) :
    xs.mergeSort reportedBefore = ys.mergeSort reportedBefore := by
  have hperm := ((List.mergeSort_perm xs reportedBefore).trans h).trans
    (List.mergeSort_perm ys reportedBefore).symm
  exact hperm.eq_of_pairwise (fun _ _ _ _ hab hba => absurd hba hab.asymm)
    (pairwise_sortConflicts hids) (pairwise_sortConflicts ((h.map _).nodup_iff.mp hids))

end Order

end PolicyGraph
end Eligibility
