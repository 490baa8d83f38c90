import Eligibility.Proofs.Schedules
/-!
# What reports say

**Gists.**  A conflict says of which kind and how bad it is, and which clauses and policies it
involves.  How it is explained depends on the order in which conditions are met; its gist does not.

**Marks.**  A candidate leaves the gist of its conflict, or nothing where it is suppressed.  Of the
gists with one identifier the first stands, so that a report says what the first gists of its
passes say, sorted, and how many candidates left nothing.

**Results.**
* `mark_eq_mark`: candidates of the same nodes, policies and clauses leave the same.
* `saysAs_assemble`: results with the same first gists make reports that say the same.
* `exists_saysAs`: passes whose candidates leave the same make reports that name the same conflicts,
  and that say the same where identifiers are clear.
-/

namespace Eligibility

/-- What a conflict says, apart from its explanation and its evidence. -/
structure Conflict.Gist where
  id : String
  kind : ConflictKind
  severity : Severity
  clauses : List String
  policies : List String
  deriving DecidableEq

namespace Conflict

/-- The gist of a conflict. -/
def gist (x : Conflict) : Gist := ⟨x.id, x.kind, x.severity, x.clauses, x.policies⟩

/-- The first gist with an identifier. -/
def first? (as : List Gist) (id : String) : Option Gist := as.find? fun a => a.id = id

/-- Whether two lists of gists have the same first gists. -/
def SameFirsts (as bs : List Gist) : Prop := ∀ id, first? as id = first? bs id

/-- Whether gists of two lists have the same identifiers. -/
def SameIds (as bs : List Gist) : Prop := ∀ id, id ∈ as.map Gist.id ↔ id ∈ bs.map Gist.id

/-- Whether gists with one identifier are one gist. -/
def IsFunctional (as : List Gist) : Prop := ∀ a ∈ as, ∀ b ∈ as, a.id = b.id → a = b

variable {as bs as' bs' : List Gist}

section Firsts

theorem first?_cons (a : Gist) (as : List Gist) (id : String) :
    first? (a :: as) id = if a.id = id then some a else first? as id := by
  by_cases h : a.id = id <;> simp [first?, h]

theorem SameFirsts.append (h : SameFirsts as bs) (h' : SameFirsts as' bs') :
    SameFirsts (as ++ as') (bs ++ bs') := fun id => by
  simp only [first?, List.find?_append]
  rw [← first?, ← first?, ← first?, ← first?, h id, h' id]

theorem isSome_first? {id : String} : (first? as id).isSome = true ↔ id ∈ as.map Gist.id := by
  simp [first?]

/-- Gists with the same first ones have the same identifiers. -/
theorem SameFirsts.sameIds (h : SameFirsts as bs) : SameIds as bs := fun id => by
  rw [← isSome_first?, h id, isSome_first?]

theorem SameIds.append (h : SameIds as bs) (h' : SameIds as' bs') :
    SameIds (as ++ as') (bs ++ bs') := fun id => by
  rw [List.map_append, List.map_append, List.mem_append, List.mem_append, h id, h' id]

/-- The same gists have the same identifiers. -/
theorem sameIds_of_mem (h : ∀ a, a ∈ as ↔ a ∈ bs) : SameIds as bs := fun id => by
  simp only [List.mem_map, h]

/-- Where an identifier tells its gist, the first gist with the identifier is any of them. -/
theorem IsFunctional.first?_eq_some_iff (h : IsFunctional as) {a : Gist} {id : String} :
    first? as id = some a ↔ a ∈ as ∧ a.id = id := by
  constructor
  · intro ha
    exact ⟨List.mem_of_find?_eq_some ha, by simpa using List.find?_some ha⟩
  · rintro ⟨ha, rfl⟩
    obtain ⟨b, hb⟩ : ∃ b, first? as a.id = some b :=
      Option.isSome_iff_exists.mp (List.find?_isSome.mpr ⟨a, ha, by simp⟩)
    have hid : b.id = a.id := by simpa using List.find?_some hb
    rw [hb, h b (List.mem_of_find?_eq_some hb) a ha hid]

/-- Lists of the same gists, of which an identifier tells its gist, have the same first ones. -/
theorem IsFunctional.sameFirsts (h : IsFunctional as) (hmem : ∀ a, a ∈ as ↔ a ∈ bs) :
    SameFirsts as bs := by
  have h' : IsFunctional bs := fun a ha b hb =>
    h a ((hmem a).mpr ha) b ((hmem b).mpr hb)
  intro id
  refine Option.ext fun a => ?_
  rw [h.first?_eq_some_iff, h'.first?_eq_some_iff, hmem]

end Firsts

/-- The identifier of a conflict depends on the set of its nodes. -/
theorem identify_congr {k : ConflictKind} {xs ys : List String} (h : ∀ s, s ∈ xs ↔ s ∈ ys) :
    identify k xs = identify k ys := by
  have hset : TextSet.ofList xs = TextSet.ofList ys :=
    TextSet.ext_members fun s => by rw [TextSet.mem_ofList, TextSet.mem_ofList, h]
  rw [identify, key, hset, ← key, ← identify]

end Conflict

open Conflict

namespace PolicyGraph

section Reports

variable {xs ys : List Conflict}

/-- The conflicts that stand are those with the first gists. -/
theorem mem_gists_firstConflicts {seen : List String} {a : Gist} :
    a ∈ (firstConflicts seen xs).map gist ↔ a.id ∉ seen ∧ first? (xs.map gist) a.id = some a := by
  induction xs generalizing seen with
  | nil => simp [firstConflicts, first?]
  | cons x r ih =>
      have hgist : (gist x).id = x.id := rfl
      rw [firstConflicts, List.map_cons, first?_cons, hgist]
      by_cases hid : x.id = a.id
      · rw [if_pos hid, Option.some.injEq]
        split
        · next hx =>
          rw [ih]
          exact ⟨fun h => absurd (hid ▸ hx) h.1, fun h => absurd (hid ▸ hx) h.1⟩
        · next hx =>
          have hseen : a.id ∉ seen := hid ▸ hx
          rw [List.map_cons, List.mem_cons, ih]
          simp [hid, hseen, eq_comm]
      · rw [if_neg hid]
        split
        · exact ih
        · have hne : a ≠ gist x := fun h => hid (congrArg Gist.id h).symm
          rw [List.map_cons, List.mem_cons, ih]
          simp [hne, Ne.symm hid]

/-- Every identifier of a conflict is reported. -/
theorem mem_ids_sorted {id : String} :
    id ∈ ((firstConflicts [] xs).mergeSort reportedBefore).map Conflict.id ↔
      id ∈ (xs.map gist).map Gist.id := by
  have hids : ∀ zs : List Conflict, zs.map Conflict.id = (zs.map gist).map Gist.id := fun zs => by
    rw [List.map_map]
    rfl
  rw [((List.mergeSort_perm _ _).map Conflict.id).mem_iff, hids, List.mem_map]
  refine Iff.trans ?_ isSome_first?
  rw [Option.isSome_iff_exists]
  constructor
  · rintro ⟨a, ha, rfl⟩
    exact ⟨a, (mem_gists_firstConflicts.mp ha).2⟩
  · rintro ⟨a, ha⟩
    have hid : a.id = id := by simpa using List.find?_some ha
    exact ⟨a, mem_gists_firstConflicts.mpr ⟨by simp, by rw [hid, ha]⟩, hid⟩

/-- Conflicts with the same first gists are reported with the same gists in the same order. -/
theorem gists_eq_of_sameFirsts (h : SameFirsts (xs.map gist) (ys.map gist)) :
    ((firstConflicts [] xs).mergeSort reportedBefore).map gist =
      ((firstConflicts [] ys).mergeSort reportedBefore).map gist := by
  have hnodup : ∀ zs : List Conflict, ((firstConflicts [] zs).map gist).Nodup := by
    intro zs
    have hids : (((firstConflicts [] zs).map gist).map Gist.id).Nodup := by
      rw [List.map_map]
      exact nodup_firstConflicts
    exact hids.of_map
  have hperm : ((firstConflicts [] xs).map gist).Perm ((firstConflicts [] ys).map gist) :=
    (List.perm_ext_iff_of_nodup (hnodup xs) (hnodup ys)).mpr fun a => by
      rw [mem_gists_firstConflicts, mem_gists_firstConflicts, h]
  have hsorted : ∀ zs : List Conflict, (((firstConflicts [] zs).mergeSort reportedBefore).map
      gist).Pairwise fun a b => b.severity.rank < a.severity.rank ∨
        a.severity.rank = b.severity.rank ∧ a.id < b.id := fun zs =>
    List.pairwise_map.mpr (pairwise_sortConflicts nodup_firstConflicts)
  refine List.Perm.eq_of_pairwise (fun a b _ _ hab hba => ?_) (hsorted xs) (hsorted ys)
    ((((List.mergeSort_perm _ _).map gist).trans hperm).trans
      ((List.mergeSort_perm _ _).map gist).symm)
  rcases hab with hab | ⟨hab, hid⟩ <;> rcases hba with hba | ⟨hba, hid'⟩
  · omega
  · omega
  · omega
  · exact absurd hid' (String.lt_asymm hid)

end Reports

end PolicyGraph

/-- Whether two passes found conflicts with the same identifiers and suppressed as many candidates,
and found the same gists where identifiers are clear. -/
structure PassResult.FoundAs (clear : Prop) (r s : PassResult) : Prop where
  kind : r.kind = s.kind
  ids : SameIds (r.conflicts.map gist) (s.conflicts.map gist)
  suppressed : r.suppressed = s.suppressed
  firsts : clear → SameFirsts (r.conflicts.map gist) (s.conflicts.map gist)

/-- Whether two reports name the same conflicts and suppress as many candidates. -/
structure ConflictReport.NamesAs (r s : ConflictReport) : Prop where
  ids : ∀ id, id ∈ r.conflicts.map Conflict.id ↔ id ∈ s.conflicts.map Conflict.id
  suppressed : r.suppressed = s.suppressed
  passes : r.passes = s.passes
  stopped : r.stopped = s.stopped

/-- Whether two reports say the same: their conflicts have the same gists in the same order. -/
structure ConflictReport.SaysAs (r s : ConflictReport) : Prop where
  gists : r.conflicts.map gist = s.conflicts.map gist
  suppressed : r.suppressed = s.suppressed
  passes : r.passes = s.passes
  stopped : r.stopped = s.stopped

namespace PolicyGraph

variable {clear : Prop}

/-- Results of passes that found conflicts with the same identifiers make reports that name the same
ones, and that say the same where identifiers are clear. -/
theorem saysAs_assemble {rs ss : List PassResult}
    (h : List.Forall₂ (PassResult.FoundAs clear) rs ss) (stopped : Bool) :
    (assemble rs stopped).NamesAs (assemble ss stopped) ∧
      (clear → (assemble rs stopped).SaysAs (assemble ss stopped)) := by
  have hgists : SameIds ((rs.flatMap PassResult.conflicts).map gist)
      ((ss.flatMap PassResult.conflicts).map gist) ∧
      (clear → SameFirsts ((rs.flatMap PassResult.conflicts).map gist)
        ((ss.flatMap PassResult.conflicts).map gist)) := by
    induction h with
    | nil => exact ⟨fun _ => Iff.rfl, fun _ _ => rfl⟩
    | cons hrs _ ih =>
        rw [List.flatMap_cons, List.flatMap_cons, List.map_append, List.map_append]
        exact ⟨hrs.ids.append ih.1, fun hclear => (hrs.firsts hclear).append (ih.2 hclear)⟩
  have hsuppressed : ss.map PassResult.suppressed = rs.map PassResult.suppressed :=
    Attempt.map_eq_map_of_forall₂ (h.imp fun _ _ hrs => hrs.suppressed.symm)
  have hkinds : ss.map PassResult.kind = rs.map PassResult.kind :=
    Attempt.map_eq_map_of_forall₂ (h.imp fun _ _ hrs => hrs.kind.symm)
  have hpassesOf : ∀ ts : List PassResult, (assemble ts stopped).passes =
      ConflictKind.all.filter fun k => (ts.map PassResult.kind).any fun l => l = k := fun ts => by
    simp only [assemble, List.any_map]
    rfl
  have hcount : (assemble rs stopped).suppressed = (assemble ss stopped).suppressed := by
    simp only [assemble, hsuppressed]
  have hpasses : (assemble rs stopped).passes = (assemble ss stopped).passes := by
    rw [hpassesOf, hpassesOf, hkinds]
  refine ⟨⟨fun id => ?_, hcount, hpasses, rfl⟩,
    fun hclear => ⟨gists_eq_of_sameFirsts (hgists.2 hclear), hcount, hpasses, rfl⟩⟩
  exact mem_ids_sorted.trans ((hgists.1 id).trans mem_ids_sorted.symm)

end PolicyGraph

namespace Candidate

/-- What a candidate leaves: the gist of its conflict, or nothing if it is suppressed. -/
def mark (g : PolicyGraph) (c : Candidate) : Option Gist :=
  match c.checkScope g, c.conflict g with
  | .ok _, .ok x => some x.gist
  | _, _ => none

variable {g h : PolicyGraph} {k : ConflictKind} {c d : Candidate}

/-- Texts of which the same ones stand in two lists are sorted to the same list. -/
theorem sortedTexts_congr {xs ys : List String} (h : ∀ s, s ∈ xs ↔ s ∈ ys) :
    sortedTexts (xs.map .str) = sortedTexts (ys.map .str) := by
  obtain ⟨xs', hxs, hxnodup, hxmem, hxsorted⟩ := Name.exists_sorted_distinct xs
  obtain ⟨ys', hys, hynodup, hymem, hysorted⟩ := Name.exists_sorted_distinct ys
  have hperm : xs'.Perm ys' := (List.perm_ext_iff_of_nodup hxnodup hynodup).mpr fun s => by
    rw [hxmem, hymem, h]
  rw [sortedTexts, sortedTexts, hxs, hys, ← hxsorted, ← hysorted, Name.sortTexts_eq_of_perm hperm]

/-- Whether a conflict says what a candidate does. -/
structure HasGist (g : PolicyGraph) (c : Candidate) (x : Conflict) : Prop where
  id : c.conflictId = .ok x.id
  kind : x.kind = c.kind
  severity : x.severity = c.severity
  clauses : sortedTexts (c.clauses.filter g.hasClause) = .ok (x.clauses.map .str)
  policies : sortedTexts c.policies = .ok (x.policies.map .str)

/-- The conflict of a sound candidate says what the candidate does. -/
theorem IsSound.exists_gist (hc : c.IsSound g k) : ∃ x, c.conflict g = .ok x ∧ c.HasGist g x := by
  obtain ⟨xs, -, hid⟩ := hc.exists_conflictId
  obtain ⟨cs, hcs⟩ := Name.exists_strs fun n hn => hc.clauses n (List.mem_of_mem_filter hn)
  obtain ⟨ps, hps⟩ := hc.exists_policies
  obtain ⟨ds, hds, -⟩ := Name.exists_sorted_distinct cs
  obtain ⟨qs, hqs, -⟩ := Name.exists_sorted_distinct ps
  have hclauses : sortedTexts (c.clauses.filter g.hasClause) = .ok (ds.map .str) := by
    rw [hcs, sortedTexts, hds]
  have hpolicies : sortedTexts c.policies = .ok (qs.map .str) := by rw [hps, sortedTexts, hqs]
  refine ⟨⟨identify k xs, c.kind, c.severity, ds, qs, c.explanation, c.evidence⟩, ?_,
    hid, rfl, rfl, hclauses, hpolicies⟩
  simp only [conflict, hid, hclauses, hpolicies, exists_texts, Attempt.ok_bind]
  rfl

/-- Sound candidates of two graphs that are equally bad and of the same nodes, clauses and policies
leave the same where the policies share their scopes in both graphs or in none. -/
theorem IsSound.mark_eq_mark (hc : c.IsSound g k) (hd : d.IsSound h k)
    (hseverity : c.severity = d.severity) (hnodes : ∀ n, n ∈ c.nodes ↔ n ∈ d.nodes)
    (hclauses : ∀ n, n ∈ c.clauses ∧ g.hasClause n = true ↔ n ∈ d.clauses ∧ h.hasClause n = true)
    (hpolicies : ∀ n, n ∈ c.policies ↔ n ∈ d.policies)
    (hscope : ∀ a b : String, .str a ∈ c.policies → .str b ∈ c.policies →
      (g.checkScope c.entities (.str a) (.str b) = .ok () ↔
        h.checkScope d.entities (.str a) (.str b) = .ok ())) : c.mark g = d.mark h := by
  obtain ⟨xs, hxs, hcid⟩ := hc.exists_conflictId
  obtain ⟨ys, hys, hdid⟩ := hd.exists_conflictId
  obtain ⟨ps, hps⟩ := hc.exists_policies
  obtain ⟨qs, hqs⟩ := hd.exists_policies
  obtain ⟨cs, hcs⟩ := Name.exists_strs fun n hn => hc.clauses n (List.mem_of_mem_filter hn)
  obtain ⟨ds, hds⟩ := Name.exists_strs fun n hn => hd.clauses n (List.mem_of_mem_filter hn)
  have hmem : ∀ {s : String} {zs : List String}, Json.str s ∈ zs.map .str ↔ s ∈ zs := by simp
  have hid : c.conflictId = d.conflictId := by
    rw [hcid, hdid, identify_congr fun s => ?_]
    rw [← hmem, ← hxs, hnodes, hys, hmem]
  have hclauses' : sortedTexts (c.clauses.filter g.hasClause) =
      sortedTexts (d.clauses.filter h.hasClause) := by
    rw [hcs, hds]
    refine sortedTexts_congr fun s => ?_
    rw [← hmem, ← hcs, ← hmem, ← hds, List.mem_filter, List.mem_filter]
    exact hclauses _
  have hpolicies' : sortedTexts c.policies = sortedTexts d.policies := by
    rw [hps, hqs]
    refine sortedTexts_congr fun s => ?_
    rw [← hmem, ← hps, hpolicies, hqs, hmem]
  have hscopes : c.checkScope g = .ok () ↔ d.checkScope h = .ok () := by
    have husable : ∀ zs : List String, (zs.map Json.str).all Name.isUsable = true := fun zs => by
      simp [Name.isUsable, Json.isScalar]
    obtain ⟨rs, hrs, -, hrmem, -⟩ := Name.exists_sorted_distinct ps
    rw [checkScope, checkScope, ← hpolicies', hps, hqs, husable, husable, sortedTexts, hrs]
    simp only [Bool.not_true, Bool.false_eq_true, if_false, Attempt.ok_bind]
    refine (Attempt.forM_eq_ok.trans (forall₂_congr ?_)).trans Attempt.forM_eq_ok.symm
    intro x hx
    rw [pairsOf_map] at hx
    obtain ⟨⟨a, b⟩, hab, rfl⟩ := List.mem_map.mp hx
    obtain ⟨ha, hb⟩ := PolicyGraph.mem_of_mem_pairsOf hab
    exact hscope a b (by rw [hps, hmem, ← hrmem]; exact ha) (by rw [hps, hmem, ← hrmem]; exact hb)
  obtain ⟨x, hx, hxgist⟩ := hc.exists_gist
  obtain ⟨y, hy, hygist⟩ := hd.exists_gist
  have hgist : x.gist = y.gist := by
    rw [gist, gist, Gist.mk.injEq]
    refine ⟨Except.ok.inj (hxgist.id.symm.trans (hid.trans hygist.id)), ?_, ?_, ?_, ?_⟩
    · rw [hxgist.kind, hygist.kind, hc.kind, hd.kind]
    · rw [hxgist.severity, hygist.severity, hseverity]
    · exact Json.strs_inj
        (Except.ok.inj (hxgist.clauses.symm.trans (hclauses'.trans hygist.clauses)))
    · exact Json.strs_inj
        (Except.ok.inj (hxgist.policies.symm.trans (hpolicies'.trans hygist.policies)))
  unfold mark
  rw [hx, hy]
  cases hcscope : c.checkScope g with
  | ok u => rw [hscopes.mp hcscope]; exact congrArg some hgist
  | error f =>
      cases hdscope : d.checkScope h with
      | ok u => rw [hscopes.mpr hdscope] at hcscope; cases hcscope
      | error f' => rfl

end Candidate

namespace PolicyGraph

variable {g h : PolicyGraph} {k : ConflictKind} {c : Candidate} {table : List Impossibility}

/-- Whether two lists of marks have gists with the same identifiers and as many marks of nothing,
and the same first gists where identifiers are clear. -/
structure SameMarks (clear : Prop) (ms ns : List (Option Gist)) : Prop where
  ids : SameIds (ms.filterMap id) (ns.filterMap id)
  suppressed : ms.count none = ns.count none
  firsts : clear → SameFirsts (ms.filterMap id) (ns.filterMap id)

/-- Marks in another order are the same where an identifier that is clear tells its gist. -/
theorem SameMarks.of_perm {clear : Prop} {ms ns : List (Option Gist)} (hperm : ms.Perm ns)
    (hfun : clear → IsFunctional (ms.filterMap id)) : SameMarks clear ms ns :=
  have hmem := fun _ => (hperm.filterMap id).mem_iff
  ⟨sameIds_of_mem hmem, hperm.count_eq none, fun hclear => (hfun hclear).sameFirsts hmem⟩

/-- A sound candidate adds what it leaves. -/
theorem IsLegible.exists_receive_mark (hg : g.IsLegible) (hc : c.IsSound g k) (r : PassResult) :
    ∃ r', (g.receive r c).outcome = .ok r' ∧ r'.kind = r.kind ∧
      r'.conflicts.map gist = r.conflicts.map gist ++ [c.mark g].filterMap id ∧
      r'.suppressed = r.suppressed + [c.mark g].count none := by
  obtain ⟨y, hy, -⟩ := hc.exists_conflict
  unfold receive Candidate.mark
  rcases hc.checkScope_cases hg with hok | ⟨f, hf, hscope⟩
  · rw [hok, hy]
    exact ⟨_, rfl, rfl, by simp, by simp⟩
  · rw [hf]
    simp only [hscope, if_true]
    exact ⟨_, rfl, rfl, by simp, by simp⟩

theorem IsLegible.exists_receiveAll_marks (hg : g.IsLegible) {cs : List Candidate}
    (hcs : ∀ c ∈ cs, c.IsSound g k) (r : PassResult) :
    ∃ r', (g.receiveAll r cs).outcome = .ok r' ∧ r'.kind = r.kind ∧
      r'.conflicts.map gist = r.conflicts.map gist ++ (cs.map (·.mark g)).filterMap id ∧
      r'.suppressed = r.suppressed + (cs.map (·.mark g)).count none := by
  induction cs generalizing r with
  | nil => exact ⟨r, rfl, rfl, by simp, by simp⟩
  | cons c cs ih =>
      obtain ⟨hc, hrest⟩ := List.forall_mem_cons.mp hcs
      obtain ⟨r1, hr1, hkind1, hgists1, hsuppressed1⟩ := hg.exists_receive_mark hc r
      obtain ⟨r2, hr2, hkind2, hgists2, hsuppressed2⟩ := ih hrest r1
      have hmarks : (c :: cs).map (·.mark g) = [c.mark g] ++ cs.map (·.mark g) := rfl
      refine ⟨r2, by rw [receiveAll, Logged.outcome_bind_ok hr1, hr2], hkind2.trans hkind1, ?_, ?_⟩
      · rw [hgists2, hgists1, hmarks, List.filterMap_append, List.append_assoc]
      · rw [hsuppressed2, hsuppressed1, hmarks, List.count_append, Nat.add_assoc]

/-- Whether a pass gives sound candidates over two graphs, and these leave the same where
identifiers are clear. -/
def PassAgrees (table : List Impossibility) (clear : Prop) (g h : PolicyGraph) (k : ConflictKind) :
    Prop :=
  ∃ cs ds, g.candidates table k = .ok cs ∧ h.candidates table k = .ok ds ∧
    (∀ c ∈ cs, c.IsSound g k) ∧ (∀ d ∈ ds, d.IsSound h k) ∧
    SameMarks clear (cs.map (·.mark g)) (ds.map (·.mark h))

/-- The result of a pass is what its candidates leave. -/
theorem IsLegible.exists_runPass_marks (hg : g.IsLegible) {cs : List Candidate}
    (hcs : g.candidates table k = .ok cs) (hsound : ∀ c ∈ cs, c.IsSound g k) :
    ∃ r, (g.runPass table k).outcome = .ok r ∧ r.kind = k ∧
      r.conflicts.map gist = (cs.map (·.mark g)).filterMap id ∧
      r.suppressed = (cs.map (·.mark g)).count none := by
  obtain ⟨r, hr, hkind, hgists, hsuppressed⟩ := hg.exists_receiveAll_marks hsound { kind := k }
  exact ⟨r, runPass_eq_ok.mpr ⟨cs, hcs, hr⟩, hkind, by simpa using hgists,
    by simpa using hsuppressed⟩

/-- Passes that agree over two graphs make reports that name the same conflicts, and that say the
same where identifiers are clear. -/
theorem exists_saysAs (hg : g.IsLegible) (hh : h.IsLegible) {passes : Option (List ConflictKind)}
    {clear : Prop} (hall : ∀ k ∈ selectedPasses passes, PassAgrees table clear g h k) :
    ∃ r s, (g.detect table passes none).outcome = .ok r ∧
      (h.detect table passes none).outcome = .ok s ∧ r.NamesAs s ∧ (clear → r.SaysAs s) := by
  have hpass : ∀ k ∈ selectedPasses passes, ∃ r s, (g.runPass table k).outcome = .ok r ∧
      (h.runPass table k).outcome = .ok s ∧ r.FoundAs clear s := by
    intro k hk
    obtain ⟨cs, ds, hcs, hds, hcsound, hdsound, hmarks⟩ := hall k hk
    obtain ⟨r, hr, hrkind, hrgists, hrsuppressed⟩ := hg.exists_runPass_marks hcs hcsound
    obtain ⟨s, hs, hskind, hsgists, hssuppressed⟩ := hh.exists_runPass_marks hds hdsound
    refine ⟨r, s, hr, hs, hrkind.trans hskind.symm, ?_, ?_, fun hclear => ?_⟩
    · rw [hrgists, hsgists]
      exact hmarks.ids
    · rw [hrsuppressed, hssuppressed, hmarks.suppressed]
    · rw [hrgists, hsgists]
      exact hmarks.firsts hclear
  obtain ⟨rs, ss, hrs, hss, hfound⟩ := Attempt.exists_mapM_pair hpass
  refine ⟨assemble rs false, assemble ss false, ?_, ?_, saysAs_assemble hfound false⟩
  · rw [outcome_detect_none, results, hrs, Attempt.map_ok]
  · rw [outcome_detect_none, results, hss, Attempt.map_ok]

end PolicyGraph
end Eligibility
