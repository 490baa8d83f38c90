import Eligibility.Conflict.Detection
import Eligibility.Proofs.Candidates
/-!
# What is reported

**Candidates.**  A sound candidate becomes a conflict or is suppressed; nothing else can
happen to it.  It becomes one where any two of its policies share a scope.

**Reports.**  Where the passes give sound candidates, the report holds, for every
candidate that is not suppressed, a conflict with its identifier, and nothing besides.

**Results.**
* `IsSound.exists_conflict`: the conflict of a sound candidate.
* `IsSound.checkScope_eq_ok`: when a candidate without regard to entities is not suppressed.
* `exists_reportOf`, `exists_report`: detection ends in a report.
* `IsReportOf.exists_candidate`, `IsReportOf.exists_conflict`: what a report tells about candidates.
-/

namespace Eligibility

namespace Conflict

/-- Texts without a bar can be told from the text that joins them with bars. -/
theorem intercalate_inj {xs ys : List String} (hx : ∀ x ∈ xs, '|' ∉ x.toList)
    (hy : ∀ y ∈ ys, '|' ∉ y.toList) (hxs : xs ≠ []) (hys : ys ≠ [])
    (h : String.intercalate "|" xs = String.intercalate "|" ys) : xs = ys := by
  have hsplit : ∀ {zs : List String}, (∀ z ∈ zs, '|' ∉ z.toList) → zs ≠ [] →
      (String.intercalate "|" zs).toList.splitOn '|' = zs.map String.toList := by
    intro zs hz hne
    rw [String.toList_intercalate]
    refine List.splitOn_intercalate '|' (fun l hl => ?_) (by simpa using hne)
    obtain ⟨z, hmem, rfl⟩ := List.mem_map.mp hl
    exact hz z hmem
  have hmap : xs.map String.toList = ys.map String.toList := by
    rw [← hsplit hx hxs, ← hsplit hy hys, h]
  exact List.map_injective_iff.mpr (fun _ _ => String.toList_injective) hmap

/-- The text that identifies a conflict tells its kind and its nodes, unless a node holds a bar. -/
theorem key_inj {k l : ConflictKind} {xs ys : List String} (hx : ∀ x ∈ xs, '|' ∉ x.toList)
    (hy : ∀ y ∈ ys, '|' ∉ y.toList) (h : key k xs = key l ys) :
    k = l ∧ ∀ s, s ∈ xs ↔ s ∈ ys := by
  have hname : ∀ k : ConflictKind, '|' ∉ k.name.toList := by
    intro k
    cases k <;> decide
  have hall : ∀ {k : ConflictKind} {zs : List String}, (∀ z ∈ zs, '|' ∉ z.toList) →
      ∀ z ∈ k.name :: (TextSet.ofList zs).members, '|' ∉ z.toList := fun hz =>
    List.forall_mem_cons.mpr ⟨hname _, fun z hmem => hz z (TextSet.mem_ofList.mp hmem)⟩
  obtain ⟨hkind, hmembers⟩ := List.cons_eq_cons.mp
    (intercalate_inj (hall hx) (hall hy) (List.cons_ne_nil _ _) (List.cons_ne_nil _ _) h)
  refine ⟨?_, fun s => ?_⟩
  · revert hkind
    cases k <;> cases l <;> decide
  · rw [← TextSet.mem_ofList, TextSet.mem_def, hmembers, ← TextSet.mem_def, TextSet.mem_ofList]

end Conflict

variable {g : PolicyGraph} {k : ConflictKind} {c : Candidate}

namespace Candidate

/-- Whether a conflict is that of a candidate. -/
structure Yields (c : Candidate) (x : Conflict) : Prop where
  kind : x.kind = c.kind
  severity : x.severity = c.severity
  distinct : x.policies.Nodup
  policies : ∀ a, a ∈ x.policies ↔ Json.str a ∈ c.policies
  sorted : Name.sortTexts x.policies = x.policies
  evidence : x.evidence = c.evidence

/-- A conflict names the policies of its candidate in their order. -/
theorem Yields.policies_eq {c : Candidate} {x : Conflict} (h : c.Yields x) {ps : List String}
    (hps : c.policies = ps.map .str) (hnodup : ps.Nodup) : x.policies = Name.sortTexts ps := by
  have hperm : x.policies.Perm ps :=
    (List.perm_ext_iff_of_nodup h.distinct hnodup).mpr fun a => by simp [h.policies, hps]
  rw [← Name.sortTexts_eq_of_perm hperm, h.sorted]

theorem exists_texts (field : String) (xs : List String) :
    texts field (xs.map .str) = .ok xs := by
  rw [texts, Schema.list, Schema.listOr]
  simp only [read_texts]
  rfl

/-- A sound candidate has an identifier. -/
theorem IsSound.exists_conflictId (hc : c.IsSound g k) :
    ∃ xs : List String, c.nodes = xs.map .str ∧ c.conflictId = .ok (Conflict.identify k xs) := by
  obtain ⟨xs, hxs⟩ := Name.exists_strs fun n hn => (hc.nodes n hn).imp fun _ h => h.1
  exact ⟨xs, hxs, by simp only [conflictId, hxs, Name.texts?_strs, hc.kind]⟩

theorem IsSound.exists_policies (hc : c.IsSound g k) :
    ∃ ps : List String, c.policies = ps.map .str :=
  Name.exists_strs fun n hn => (hc.policies n hn).imp fun _ h => h.1

/-- A sound candidate has a conflict. -/
theorem IsSound.exists_conflict (hc : c.IsSound g k) :
    ∃ x, c.conflict g = .ok x ∧ c.conflictId = .ok x.id ∧ c.Yields x := by
  obtain ⟨xs, -, hid⟩ := hc.exists_conflictId
  have hclauses : ∀ n ∈ c.clauses.filter g.hasClause, ∃ s, n = .str s :=
    fun n hn => hc.clauses n (List.mem_of_mem_filter hn)
  obtain ⟨cs, hcs⟩ := Name.exists_strs hclauses
  obtain ⟨ps, hps⟩ := hc.exists_policies
  obtain ⟨ds, hds, -⟩ := Name.exists_sorted_distinct cs
  obtain ⟨qs, hqs, hnodup, hmem, hsorted⟩ := Name.exists_sorted_distinct ps
  refine ⟨⟨Conflict.identify k xs, c.kind, c.severity, ds, qs, c.explanation, c.evidence⟩,
    ?_, hid, rfl, rfl, hnodup, fun a => ?_, hsorted, rfl⟩
  · simp only [conflict, hid, sortedTexts, hcs, hps, hds, hqs, exists_texts, Attempt.ok_bind]
    rfl
  · rw [hps]
    simp [hmem]

section Scopes

theorem pairsOf_map {α β : Type} (f : α → β) (xs : List α) :
    PolicyGraph.pairsOf (xs.map f) = (PolicyGraph.pairsOf xs).map (Prod.map f f) := by
  induction xs with
  | nil => rfl
  | cons x r ih => simp [PolicyGraph.pairsOf, ih, Function.comp_def]

/-- The scope of a sound candidate is checked for any two of its policies. -/
theorem IsSound.exists_checkScope (hc : c.IsSound g k) :
    ∃ ps : List String, ps.Nodup ∧ (∀ a, a ∈ ps ↔ Json.str a ∈ c.policies) ∧
      c.checkScope g = forM (PolicyGraph.pairsOf ps) fun x =>
        g.checkScope c.entities (.str x.1) (.str x.2) := by
  obtain ⟨ps, hps⟩ := hc.exists_policies
  obtain ⟨qs, hqs, hnodup, hmem, -⟩ := Name.exists_sorted_distinct ps
  have husable : (ps.map Json.str).all Name.isUsable = true := by
    simp [Name.isUsable, Json.isScalar]
  refine ⟨qs, hnodup, fun a => by rw [hmem, hps]; simp, ?_⟩
  rw [checkScope]
  simp only [hps, husable, sortedTexts, hqs, Attempt.ok_bind]
  exact (congrArg (forM · _) (pairsOf_map _ _)).trans List.forM_map

/-- A sound candidate of one policy is not suppressed. -/
theorem IsSound.checkScope_of_lone (hc : c.IsSound g k) {a : String}
    (hpolicies : c.policies = [.str a]) : c.checkScope g = .ok () := by
  obtain ⟨ps, hnodup, hmem, hcheck⟩ := hc.exists_checkScope
  obtain rfl : ps = [a] := List.perm_singleton.mp
    ((List.perm_ext_iff_of_nodup hnodup (List.nodup_singleton a)).mpr fun b => by
      simp [hmem, hpolicies])
  exact hcheck

/-- A sound candidate of two policies that share a scope, in either order, is not suppressed. -/
theorem IsSound.checkScope_of_pair (hc : c.IsSound g k) {a b : String}
    (hpolicies : c.policies = [.str a, .str b]) (hne : a ≠ b)
    (hab : g.checkScope c.entities (.str a) (.str b) = .ok ())
    (hba : g.checkScope c.entities (.str b) (.str a) = .ok ()) : c.checkScope g = .ok () := by
  obtain ⟨ps, hnodup, hmem, hcheck⟩ := hc.exists_checkScope
  have hps : ∀ x ∈ ps, x = a ∨ x = b := fun x hx => by simpa [hpolicies] using (hmem x).mp hx
  rw [hcheck, Attempt.forM_eq_ok]
  refine PolicyGraph.forall_mem_pairsOf
    (R := fun x y => g.checkScope c.entities (.str x) (.str y) = .ok ()) |>.mpr
      (hnodup.pairwise_of_forall_ne fun x hx y hy hxy => ?_)
  rcases hps x hx with rfl | rfl <;> rcases hps y hy with rfl | rfl
  · exact absurd rfl hxy
  · exact hab
  · exact hba
  · exact absurd rfl hxy

/-- A sound candidate is suppressed, or it is not: the check has no other fault. -/
theorem IsSound.checkScope_cases (hc : c.IsSound g k) (h : g.IsLegible) :
    c.checkScope g = .ok () ∨
      ∃ f, c.checkScope g = .error f ∧ PolicyGraph.isScopeFault f = true := by
  obtain ⟨ps, -, hmem, hcheck⟩ := hc.exists_checkScope
  have hpolicy : ∀ a ∈ ps, g.HasPolicy a := by
    intro a ha
    obtain ⟨s, hs, hpolicy⟩ := hc.policies _ ((hmem a).mp ha)
    rwa [Json.str.inj hs]
  cases hresult : c.checkScope g with
  | ok u => exact .inl rfl
  | error f =>
      right
      obtain ⟨x, hx, hf⟩ := Attempt.exists_of_forM_error (hcheck.symm.trans hresult)
      obtain ⟨hfirst, hsecond⟩ := PolicyGraph.mem_of_mem_pairsOf hx
      rcases h.checkScope_cases c.entities (hpolicy _ hfirst) (hpolicy _ hsecond) with
        hok | ⟨f', hf', hscope⟩
      · rw [hf] at hok
        cases hok
      · exact ⟨f, rfl, by rwa [Except.error.inj (hf.symm.trans hf')]⟩

/-- A sound candidate is not suppressed exactly where an edge links any two of its policies, if
these share a scope exactly where an edge links them. -/
theorem IsSound.checkScope_iff_isLinked (hc : c.IsSound g k)
    (hscope : ∀ a b, Json.str a ∈ c.policies → Json.str b ∈ c.policies → a ≠ b →
      (g.checkScope c.entities (.str a) (.str b) = .ok () ↔ g.IsLinked a b)) :
    c.checkScope g = .ok () ↔
      ∀ a b, Json.str a ∈ c.policies → Json.str b ∈ c.policies → a ≠ b → g.IsLinked a b := by
  obtain ⟨ps, hnodup, hmem, hcheck⟩ := hc.exists_checkScope
  have hne : ps.Pairwise (· ≠ ·) := hnodup
  rw [hcheck, Attempt.forM_eq_ok, PolicyGraph.forall_mem_pairsOf (R := fun a b =>
    g.checkScope c.entities (.str a) (.str b) = .ok ())]
  constructor
  · intro hpairs a b ha hb hab
    have hlinked : ps.Pairwise fun a b => a ≠ b → g.IsLinked a b :=
      (hpairs.and hne).imp_of_mem fun {a b} ha hb h _ =>
        (hscope a b ((hmem a).mp ha) ((hmem b).mp hb) h.2).mp h.1
    have hsymm : Std.Symm fun a b => a ≠ b → g.IsLinked a b :=
      ⟨fun a b h hba => (h hba.symm).symm⟩
    exact hlinked.forall ((hmem a).mpr ha) ((hmem b).mpr hb) hab hab
  · intro hall
    refine hnodup.pairwise_of_forall_ne fun a ha b hb hab => ?_
    rw [hmem] at ha hb
    exact (hscope a b ha hb hab).mpr (hall a b ha hb hab)

/-- Without regard to entities a sound candidate is not suppressed exactly where an edge links any
two of its policies. -/
theorem IsSound.checkScope_eq_ok (hc : c.IsSound g k) (h : g.IsLegible)
    (hentities : c.entities = false) :
    c.checkScope g = .ok () ↔
      ∀ a b, Json.str a ∈ c.policies → Json.str b ∈ c.policies → a ≠ b → g.IsLinked a b := by
  have hpolicy : ∀ a, Json.str a ∈ c.policies → g.HasPolicy a := by
    intro a ha
    obtain ⟨s, hs, hpolicy⟩ := hc.policies _ ha
    rwa [Json.str.inj hs]
  refine hc.checkScope_iff_isLinked fun a b ha hb hne => ?_
  rw [hentities, h.checkScope_eq_ok (hpolicy a ha) (hpolicy b hb)]
  exact or_iff_right hne

end Scopes

end Candidate

namespace PolicyGraph

variable {table : List Impossibility}

section Passes

/-- Whether a conflict is that of a candidate that is not suppressed. -/
def Receives (g : PolicyGraph) (c : Candidate) (x : Conflict) : Prop :=
  c.checkScope g = .ok () ∧ c.conflict g = .ok x

/-- Whether a pass gives a candidate. -/
def Gives (g : PolicyGraph) (table : List Impossibility) (k : ConflictKind) (c : Candidate) :
    Prop :=
  ∃ cs, g.candidates table k = .ok cs ∧ c ∈ cs

/-- Whether a pass gives its candidates, and they are sound. -/
def PassIsSound (g : PolicyGraph) (table : List Impossibility) (k : ConflictKind) : Prop :=
  ∃ cs, g.candidates table k = .ok cs ∧ ∀ c ∈ cs, c.IsSound g k

theorem PassIsSound.isSound (h : g.PassIsSound table k) (hc : g.Gives table k c) :
    c.IsSound g k := by
  obtain ⟨cs, hcs, hsound⟩ := h
  obtain ⟨ds, hds, hc⟩ := hc
  obtain rfl := Except.ok.inj (hds.symm.trans hcs)
  exact hsound c hc

/-- A sound candidate adds its conflict, unless it is suppressed. -/
theorem IsLegible.exists_receive (h : g.IsLegible) (hc : c.IsSound g k)
    (r : PassResult) :
    ∃ r', (g.receive r c).outcome = .ok r' ∧
      ∀ x, x ∈ r'.conflicts ↔ x ∈ r.conflicts ∨ g.Receives c x := by
  obtain ⟨y, hy, -⟩ := hc.exists_conflict
  unfold receive Receives
  rcases hc.checkScope_cases h with hok | ⟨f, hf, hscope⟩
  · rw [hok]
    refine ⟨_, by rw [hy, Attempt.map_ok], fun x => ?_⟩
    simp [hy, eq_comm]
  · rw [hf]
    simp only [hscope, if_true]
    refine ⟨_, rfl, fun x => ?_⟩
    simp

theorem IsLegible.exists_receiveAll (h : g.IsLegible) {cs : List Candidate}
    (hcs : ∀ c ∈ cs, c.IsSound g k) (r : PassResult) :
    ∃ r', (g.receiveAll r cs).outcome = .ok r' ∧
      ∀ x, x ∈ r'.conflicts ↔ x ∈ r.conflicts ∨ ∃ c ∈ cs, g.Receives c x := by
  induction cs generalizing r with
  | nil => exact ⟨r, rfl, by simp⟩
  | cons c cs ih =>
      obtain ⟨hc, hrest⟩ := List.forall_mem_cons.mp hcs
      obtain ⟨r1, hr1, hspec1⟩ := h.exists_receive hc r
      obtain ⟨r2, hr2, hspec2⟩ := ih hrest r1
      refine ⟨r2, by rw [receiveAll, Logged.outcome_bind_ok hr1, hr2], fun x => ?_⟩
      rw [hspec2, hspec1, List.exists_mem_cons_iff, or_assoc]

/-- A pass finds the conflicts of its candidates that are not suppressed. -/
theorem IsLegible.exists_runPass (h : g.IsLegible) (hk : g.PassIsSound table k) :
    ∃ r, (g.runPass table k).outcome = .ok r ∧
      ∀ x, x ∈ r.conflicts ↔ ∃ c, g.Gives table k c ∧ g.Receives c x := by
  obtain ⟨cs, hcs, hsound⟩ := hk
  obtain ⟨r, hr, hspec⟩ := h.exists_receiveAll hsound { kind := k }
  refine ⟨r, ?_, fun x => ?_⟩
  · rw [runPass, Logged.outcome_bind_ok (a := cs) (by rw [hcs]; rfl), Logged.outcome_bind_ok hr]
    rfl
  · rw [hspec]
    constructor
    · rintro (hx | ⟨c, hc, hx⟩)
      · simp at hx
      · exact ⟨c, ⟨cs, hcs, hc⟩, hx⟩
    · rintro ⟨c, ⟨ds, hds, hc⟩, hx⟩
      obtain rfl := Except.ok.inj (hds.symm.trans hcs)
      exact .inr ⟨c, hc, hx⟩

theorem IsLegible.exists_runPasses (h : g.IsLegible) {ks : List ConflictKind}
    (hks : ∀ k ∈ ks, g.PassIsSound table k) :
    ∃ rs, (g.runPasses table none ks).outcome = .ok (rs, false) ∧
      ∀ x, x ∈ rs.flatMap PassResult.conflicts ↔
        ∃ k ∈ ks, ∃ c, g.Gives table k c ∧ g.Receives c x := by
  induction ks with
  | nil => exact ⟨[], rfl, by simp⟩
  | cons k ks ih =>
      obtain ⟨hk, hrest⟩ := List.forall_mem_cons.mp hks
      obtain ⟨r, hr, hspec⟩ := h.exists_runPass hk
      obtain ⟨rs, hrs, hspecs⟩ := ih hrest
      refine ⟨r :: rs, ?_, fun x => ?_⟩
      · rw [runPasses, if_neg (by simp), Logged.outcome_bind_ok hr, Option.map_none,
          Logged.outcome_bind_ok hrs]
        rfl
      · rw [List.flatMap_cons, List.mem_append, hspec, hspecs, List.exists_mem_cons_iff]

end Passes

section Reports

theorem mem_of_mem_firstConflicts {seen : List String} {xs : List Conflict} {x : Conflict}
    (hx : x ∈ firstConflicts seen xs) : x ∈ xs := by
  induction xs generalizing seen with
  | nil => simp [firstConflicts] at hx
  | cons y r ih =>
      unfold firstConflicts at hx
      split at hx
      · exact List.mem_cons_of_mem _ (ih hx)
      · rcases List.mem_cons.mp hx with rfl | hx
        · simp
        · exact List.mem_cons_of_mem _ (ih hx)

/-- Of the conflicts with one identifier one stands. -/
theorem exists_mem_firstConflicts {seen : List String} {xs : List Conflict} {x : Conflict}
    (hx : x ∈ xs) (hseen : x.id ∉ seen) : ∃ y ∈ firstConflicts seen xs, y.id = x.id := by
  induction xs generalizing seen with
  | nil => simp at hx
  | cons z r ih =>
      unfold firstConflicts
      split
      · next hz =>
        rcases List.mem_cons.mp hx with rfl | hx
        · exact absurd hz hseen
        · exact ih hx hseen
      · by_cases hid : x.id = z.id
        · exact ⟨z, by simp, hid.symm⟩
        · have hnew : x.id ∉ z.id :: seen := by simp [hid, hseen]
          rcases List.mem_cons.mp hx with rfl | hx
          · exact absurd rfl hid
          · obtain ⟨y, hy, he⟩ := ih hx hnew
            exact ⟨y, List.mem_cons_of_mem _ hy, he⟩

/-- A report of the conflicts of the candidates of some passes that are not suppressed, in which
each of them has a conflict with its identifier. -/
structure IsReportOf (g : PolicyGraph) (table : List Impossibility) (ks : List ConflictKind)
    (r : ConflictReport) : Prop where
  sound : ∀ x ∈ r.conflicts, ∃ k ∈ ks, ∃ c, g.Gives table k c ∧ g.Receives c x
  complete : ∀ k ∈ ks, ∀ c x, g.Gives table k c → g.Receives c x → ∃ y ∈ r.conflicts, y.id = x.id

/-- A report of the conflicts of all passes. -/
abbrev IsReport (g : PolicyGraph) (table : List Impossibility) (r : ConflictReport) : Prop :=
  g.IsReportOf table ConflictKind.all r

/-- Where the candidates of the selected passes are sound, detection ends in a report of them. -/
theorem IsLegible.exists_reportOf (h : g.IsLegible) {passes : Option (List ConflictKind)}
    (hpasses : ∀ k ∈ selectedPasses passes, g.PassIsSound table k) :
    ∃ r, (g.detect table passes none).outcome = .ok r ∧
      g.IsReportOf table (selectedPasses passes) r := by
  obtain ⟨rs, hrs, hspec⟩ := h.exists_runPasses hpasses
  have hmem : ∀ x, x ∈ (assemble rs false).conflicts ↔
      x ∈ firstConflicts [] (rs.flatMap PassResult.conflicts) :=
    fun x => (List.mergeSort_perm _ _).mem_iff
  refine ⟨assemble rs false, ?_, fun x hx => ?_, fun k hk c x hc hx => ?_⟩
  · rw [detect, Logged.outcome_bind_ok hrs]
    rfl
  · exact (hspec x).mp (mem_of_mem_firstConflicts ((hmem x).mp hx))
  · obtain ⟨y, hy, hid⟩ :=
      exists_mem_firstConflicts ((hspec x).mpr ⟨k, hk, c, hc, hx⟩) List.not_mem_nil
    exact ⟨y, (hmem y).mpr hy, hid⟩

/-- Where the candidates of all passes are sound, detection ends in a report of them. -/
theorem IsLegible.exists_report (h : g.IsLegible)
    (hall : ∀ k, g.PassIsSound table k) :
    ∃ r, (g.detect table none none).outcome = .ok r ∧ g.IsReport table r :=
  h.exists_reportOf fun k _ => hall k

/-- Whether candidates of some passes with one identifier are of one kind and about the same
nodes. -/
def HasNoCollisionAmong (g : PolicyGraph) (table : List Impossibility) (ks : List ConflictKind) :
    Prop :=
  ∀ k ∈ ks, ∀ l ∈ ks, ∀ c d id, g.Gives table k c → g.Gives table l d → c.conflictId = .ok id →
    d.conflictId = .ok id → c.kind = d.kind ∧ ∀ n, n ∈ c.nodes ↔ n ∈ d.nodes

/-- Nothing collides among the candidates of one pass if they are all about the same nodes. -/
theorem hasNoCollisionAmong_singleton {ns : List Name}
    (h : ∀ c, g.Gives table k c → c.kind = k ∧ ∀ n, n ∈ c.nodes ↔ n ∈ ns) :
    g.HasNoCollisionAmong table [k] := by
  intro i hi j hj c d id hc hd _ _
  obtain rfl := List.mem_singleton.mp hi
  obtain rfl := List.mem_singleton.mp hj
  exact ⟨(h c hc).1.trans (h d hd).1.symm, fun n => ((h c hc).2 n).trans ((h d hd).2 n).symm⟩

variable {ks : List ConflictKind} {r : ConflictReport}

/-- A conflict of a report is that of a candidate of the pass that looks for its kind. -/
theorem IsReportOf.exists_candidate (hr : g.IsReportOf table ks r)
    (hsound : ∀ k ∈ ks, g.PassIsSound table k) {x : Conflict} (hx : x ∈ r.conflicts) :
    ∃ c, g.Gives table x.kind c ∧ c.IsSound g x.kind ∧ c.checkScope g = .ok () ∧ c.Yields x := by
  obtain ⟨k, hk, c, hc, hscope, hconflict⟩ := hr.sound x hx
  have hcsound := (hsound k hk).isSound hc
  obtain ⟨y, hy, -, hyields⟩ := hcsound.exists_conflict
  obtain rfl := Except.ok.inj (hconflict.symm.trans hy)
  obtain rfl : k = x.kind := by rw [← hcsound.kind, hyields.kind]
  exact ⟨c, hc, hcsound, hscope, hyields⟩

/-- Unless identifiers collide, a report has for every candidate that is not suppressed a conflict
of one of the same kind about the same nodes. -/
theorem IsReportOf.exists_conflict (hr : g.IsReportOf table ks r)
    (hsound : ∀ k ∈ ks, g.PassIsSound table k) (hids : g.HasNoCollisionAmong table ks) (hk : k ∈ ks)
    (hc : g.Gives table k c) (hscope : c.checkScope g = .ok ()) :
    ∃ d, g.Gives table k d ∧ (∀ n, n ∈ d.nodes ↔ n ∈ c.nodes) ∧
      ∃ x ∈ r.conflicts, x.kind = k ∧ d.Yields x := by
  have hcsound := (hsound k hk).isSound hc
  obtain ⟨x, hx, hxid, -⟩ := hcsound.exists_conflict
  obtain ⟨y, hy, hid⟩ := hr.complete k hk c x hc ⟨hscope, hx⟩
  obtain ⟨l, hl, d, hd, -, hdconflict⟩ := hr.sound y hy
  have hdsound := (hsound l hl).isSound hd
  obtain ⟨z, hz, hzid, hyields⟩ := hdsound.exists_conflict
  obtain rfl := Except.ok.inj (hdconflict.symm.trans hz)
  obtain ⟨hkind, hnodes⟩ := hids k hk l hl c d y.id hc hd (by rw [hxid, hid]) hzid
  obtain rfl : l = k := by rw [← hdsound.kind, ← hkind, hcsound.kind]
  exact ⟨d, hd, fun n => (hnodes n).symm, y, hy, by rw [hyields.kind, hdsound.kind], hyields⟩

end Reports

end PolicyGraph

end Eligibility
