import Mathlib.Data.Prod.Lex
import Mathlib.Data.String.Basic
import Eligibility.Proofs.Intervals
import Eligibility.Proofs.Pairings
/-!
# Ranges of graphs that resemble each other

**Lookups.**  The range of a condition is that of the first path that ends in it.  Where each
condition belongs to one policy and has one truth value to take, every path that ends in it gives
the same range.

**Order.**  Ranges are swept in the order of their beginnings.  No two ranges of a graph begin
alike, for the text of the node decides last, so that the order in which ranges are found is lost.

**Results.**
* `exists_arrangeRanges`: ranges are arranged by where they begin.
* `arrangeRanges_eq_of_perm`: ranges found in another order are arranged alike.
* `IsTable.find?_eq_some`: the literal that a condition is looked up to have.
* `incompatibleThresholds_eq`: the pass over ranges gives the same over both graphs.
-/

namespace Eligibility

open Conflict

namespace PolicyGraph

variable {g h : PolicyGraph} {table : List Impossibility}

section Order

/-- Where a range begins: its lower end, whether that end is open, and the text of its node. -/
def Range.rank (r : Range) : WithBot (WithTop Rat) ×ₗ Bool ×ₗ String :=
  toLex (r.interval.low.place, toLex (!r.interval.lowClosed, r.literal.node.id.display))

theorem Range.exists_id_of_isOrderly {r : Range} (hr : r.isOrderly = true) :
    r.interval.low.isNaN = false ∧ ∃ s, r.literal.node.id = .str s := by
  unfold isOrderly at hr
  rw [Bool.and_eq_true, Bool.not_eq_true'] at hr
  refine ⟨hr.1, ?_⟩
  have hid := hr.2
  split at hid
  · next s hs => exact ⟨s, hs⟩
  · cases hid

/-- Ranges that have an order are ordered by their ranks. -/
theorem Range.startsNoLater_eq {a b : Range} (ha : a.isOrderly = true) (hb : b.isOrderly = true) :
    a.startsNoLater b = decide (a.rank ≤ b.rank) := by
  obtain ⟨hanumber, s, hs⟩ := exists_id_of_isOrderly ha
  obtain ⟨hbnumber, t, ht⟩ := exists_id_of_isOrderly hb
  have hlow : b.interval.low.alike a.interval.low =
      decide (b.interval.low.place = a.interval.low.place) := by
    have hsame : b.interval.low.alike a.interval.low = b.interval.low.same a.interval.low := by
      unfold Number.alike
      split
      · next hx _ => rw [hx] at hbnumber; cases hbnumber
      · rfl
    rw [hsame, Bool.eq_iff_iff, Number.same_iff hbnumber hanumber, decide_eq_true_iff]
  have hlt : b.interval.low.lt a.interval.low =
      decide (b.interval.low.place < a.interval.low.place) := by
    rw [Bool.eq_iff_iff, Number.lt_iff hbnumber hanumber, decide_eq_true_iff]
  have hrank : a.rank ≤ b.rank ↔ a.interval.low.place < b.interval.low.place ∨
      a.interval.low.place = b.interval.low.place ∧
        ((!a.interval.lowClosed) < (!b.interval.lowClosed) ∨
          (!a.interval.lowClosed) = (!b.interval.lowClosed) ∧ s ≤ t) := by
    simp only [rank, Prod.Lex.toLex_le_toLex, hs, ht, Json.display_str]
  have hordered : Fault.ordered (.str t) (.str s) = .ok (decide (t < s)) := by
    simp [Fault.ordered, Name.before?]
  have htext : (if decide (t = s) = true then .ok false else Fault.ordered (.str t) (.str s)) =
      .ok (!decide (s ≤ t)) := by
    rw [hordered, ← decide_not, decide_eq_decide.mpr not_le]
    split
    · next hts => rw [decide_eq_false (of_decide_eq_true hts).not_lt]
    · rfl
  rw [Bool.eq_iff_iff, decide_eq_true_iff, hrank, startsNoLater, startsBefore, hlow, hlt, hs, ht,
    Json.alike_str, htext]
  rcases lt_trichotomy a.interval.low.place b.interval.low.place with hplace | hplace | hplace
  · simp [hplace, hplace.ne', hplace.le]
  · rw [hplace]
    cases a.interval.lowClosed <;> cases b.interval.lowClosed <;> simp
  · simp [hplace, hplace.ne, hplace.ne', hplace.not_gt]

/-- Ranges that have an order are arranged by their ranks. -/
theorem exists_arrangeRanges {rs : List Range} (horderly : ∀ r ∈ rs, r.isOrderly = true) :
    ∃ ss, arrangeRanges rs = .ok ss ∧ ss.Perm rs ∧ ss.Pairwise fun a b => a.rank ≤ b.rank := by
  have hsort : rs.mergeSort Range.startsNoLater =
      rs.mergeSort fun a b => decide (a.rank ≤ b.rank) := by
    have hmap := List.map_mergeSort (f := id) (r := Range.startsNoLater)
      (s := fun a b => decide (a.rank ≤ b.rank)) (l := rs)
      fun a ha b hb => Range.startsNoLater_eq (horderly a ha) (horderly b hb)
    simpa only [List.map_id] using hmap
  have htrans : ∀ a b c : Range, decide (a.rank ≤ b.rank) = true →
      decide (b.rank ≤ c.rank) = true → decide (a.rank ≤ c.rank) = true := by
    intro a b c hab hbc
    exact decide_eq_true (le_trans (of_decide_eq_true hab) (of_decide_eq_true hbc))
  have htotal : ∀ a b : Range, (decide (a.rank ≤ b.rank) || decide (b.rank ≤ a.rank)) = true := by
    intro a b
    simpa only [Bool.or_eq_true, decide_eq_true_iff] using le_total a.rank b.rank
  refine ⟨_, by rw [arrangeRanges, if_pos (List.all_eq_true.mpr horderly)], List.mergeSort_perm _ _,
    ?_⟩
  rw [hsort]
  exact (List.pairwise_mergeSort htrans htotal rs).imp of_decide_eq_true

/-- Ranges found in another order are arranged alike, where a node has one range. -/
theorem arrangeRanges_eq_of_perm {rs ss : List Range} (hperm : rs.Perm ss)
    (horderly : ∀ r ∈ rs, r.isOrderly = true)
    (hids : ∀ a ∈ rs, ∀ b ∈ rs, a.literal.node.id = b.literal.node.id → a = b) :
    arrangeRanges rs = arrangeRanges ss := by
  obtain ⟨rs', hrs', hrsPerm, hrsSorted⟩ := exists_arrangeRanges horderly
  obtain ⟨ss', hss', hssPerm, hssSorted⟩ :=
    exists_arrangeRanges fun r hr => horderly r (hperm.mem_iff.mpr hr)
  rw [hrs', hss']
  refine congrArg Except.ok (List.Perm.eq_of_pairwise (fun a b ha hb hab hba => ?_) hrsSorted
    hssSorted ((hrsPerm.trans hperm).trans hssPerm.symm))
  have haMem := hrsPerm.mem_iff.mp ha
  have hbMem := hperm.mem_iff.mpr (hssPerm.mem_iff.mp hb)
  obtain ⟨-, s, hs⟩ := Range.exists_id_of_isOrderly (horderly a haMem)
  obtain ⟨-, t, ht⟩ := Range.exists_id_of_isOrderly (horderly b hbMem)
  have hrank : a.rank = b.rank := le_antisymm hab hba
  have htext : s = t := by
    have hlast := congrArg (fun x => (ofLex (ofLex x).2).2) hrank
    simpa only [Range.rank, ofLex_toLex, hs, ht, Json.display_str] using hlast
  exact hids a haMem b hbMem (by rw [hs, ht, htext])

end Order

section Lookups

/-- Whether a table holds the last conditions of sites, and those of all sites. -/
structure IsTable (g : PolicyGraph) (ds : List Demand) : Prop where
  sound : ∀ d ∈ ds, ∃ t ∈ g.sites, d = ⟨t.policy, t.path.leaf⟩
  covers : ∀ t ∈ g.sites, ∃ d ∈ ds, d.literal.node.id.alike t.path.leaf.node.id = true

/-- The last condition of a site, unless the table has it. -/
def addLeaf (ds : List Demand) (t : Site) : List Demand :=
  if ds.any fun d => d.literal.node.id.alike t.path.leaf.node.id then ds
  else ds ++ [⟨t.policy, t.path.leaf⟩]

/-- The table of conditions is gathered from the sites. -/
theorem IsLegible.exists_isTable (hg : g.IsLegible) :
    ∃ ds, g.leafTable = .ok ds ∧ g.IsTable ds := by
  have hfold : g.leafTable = .ok (g.sites.foldl addLeaf []) := by
    have hsites := hg.foldlM_sites (fun a ds p => (.ok (addLeaf ds ⟨a, p⟩) : Except Fault _)) []
    refine Eq.trans ?_ (hsites.trans (List.foldlM_pure ..))
    refine congrArg (fun f => (g.policyIds false).foldlM f []) ?_
    funext ds a
    exact bind_congr fun ps => (List.foldlM_pure ..).symm
  have hids : ∀ t ∈ g.sites, ∃ s, t.path.leaf.node.id = .str s := fun t ht =>
    hg.ids _ (isOn_of_mem_sites ht _ List.mem_cons_self).node
  have hall : ∀ (ts : List Site), (∀ t ∈ ts, ∃ s, t.path.leaf.node.id = .str s) → ∀ ds,
      (∀ d ∈ ts.foldl addLeaf ds, d ∈ ds ∨ ∃ t ∈ ts, d = ⟨t.policy, t.path.leaf⟩) ∧
      (∀ d ∈ ds, d ∈ ts.foldl addLeaf ds) ∧
      ∀ t ∈ ts, ∃ d ∈ ts.foldl addLeaf ds,
        d.literal.node.id.alike t.path.leaf.node.id = true := by
    intro ts
    induction ts with
    | nil => exact fun _ ds => ⟨fun d hd => .inl hd, fun d hd => hd, List.forall_mem_nil _⟩
    | cons t r ih =>
        intro hids ds
        obtain ⟨⟨s, hs⟩, hrest⟩ := List.forall_mem_cons.mp hids
        obtain ⟨hsound, hkept, hcovers⟩ := ih hrest (addLeaf ds t)
        have hstep : ∀ d ∈ addLeaf ds t, d ∈ ds ∨ d = ⟨t.policy, t.path.leaf⟩ := by
          intro d hd
          unfold addLeaf at hd
          split at hd
          · exact .inl hd
          · exact (List.mem_append.mp hd).imp_right List.mem_singleton.mp
        have hgrown : ∀ d ∈ ds, d ∈ addLeaf ds t := by
          intro d hd
          unfold addLeaf
          split
          · exact hd
          · exact List.mem_append_left _ hd
        have hcovered : ∃ d ∈ addLeaf ds t,
            d.literal.node.id.alike t.path.leaf.node.id = true := by
          unfold addLeaf
          split
          · next hany => exact List.any_eq_true.mp hany
          · exact ⟨_, List.mem_append_right _ (List.mem_singleton_self _), by
              rw [hs, Json.alike_str, decide_eq_true rfl]⟩
        refine ⟨fun d hd => ?_, fun d hd => hkept d (hgrown d hd), fun u hu => ?_⟩
        · rcases hsound d hd with hd | ⟨u, hu, rfl⟩
          · exact (hstep d hd).imp_right fun he => ⟨t, List.mem_cons_self, he⟩
          · exact .inr ⟨u, List.mem_cons_of_mem _ hu, rfl⟩
        · rcases List.mem_cons.mp hu with rfl | hu
          · exact hcovered.imp fun d hd => ⟨hkept d hd.1, hd.2⟩
          · exact hcovers u hu
  obtain ⟨hsound, -, hcovers⟩ := hall g.sites hids []
  exact ⟨_, hfold, fun d hd => (hsound d hd).resolve_left List.not_mem_nil, hcovers⟩

/-- A condition is looked up to have the literal with which some path ends in it. -/
theorem IsTable.find?_eq_some (hg : g.IsLegible) (howned : g.IsOwned) {ds : List Demand}
    (hds : g.IsTable ds) {s : String} {d : Demand} :
    (ds.find? fun d => d.literal.node.id.alike (.str s)) = some d ↔
      d.literal.node.id = .str s ∧ ∃ t ∈ g.sites, d = ⟨t.policy, t.path.leaf⟩ := by
  constructor
  · intro hfind
    have halike := List.find?_some hfind
    exact ⟨Json.alike_str_right.mp halike, hds.sound d (List.mem_of_find?_eq_some hfind)⟩
  · rintro ⟨hid, t, ht, rfl⟩
    obtain ⟨d, hd, halike⟩ := hds.covers t ht
    rw [hid] at halike
    obtain ⟨e, he⟩ : ∃ e, (ds.find? fun d => d.literal.node.id.alike (.str s)) = some e :=
      Option.isSome_iff_exists.mp (List.find?_isSome.mpr ⟨d, hd, halike⟩)
    have hlike := List.find?_some he
    obtain ⟨u, hu, rfl⟩ := hds.sound e (List.mem_of_find?_eq_some he)
    have hid' : u.path.leaf.node.id = .str s := Json.alike_str_right.mp hlike
    have hleaf := howned.sites t ht _ List.mem_cons_self
    have hleaf' := howned.sites u hu _ List.mem_cons_self
    have hnode : u.path.leaf.node = t.path.leaf.node :=
      hg.eq_of_id (isOn_of_mem_sites hu _ List.mem_cons_self).node
        (isOn_of_mem_sites ht _ List.mem_cons_self).node (hid'.trans hid.symm)
    have hliteral : u.path.leaf = t.path.leaf :=
      howned.polarity u hu _ List.mem_cons_self t ht _ List.mem_cons_self hnode
    rw [he, hliteral, ← hleaf, ← hleaf', hnode]

/-- Graphs that resemble each other have the same ranges. -/
theorem Resembles.rangeOf?_eq (hgh : g.Resembles h) (hg : g.IsLegible) (hh : h.IsLegible)
    (howned : g.IsOwned) (howned' : h.IsOwned) {ds es : List Demand} (hds : g.IsTable ds)
    (hes : h.IsTable es) {n : Node} (hn : n ∈ g.nodes) : rangeOf? ds n = rangeOf? es n := by
  obtain ⟨s, hs⟩ := hg.ids n hn
  have hfind : (ds.find? fun d => d.literal.node.id.alike n.id) =
      es.find? fun d => d.literal.node.id.alike n.id := by
    rw [hs]
    refine Option.ext fun d => ?_
    rw [hds.find?_eq_some hg howned, hes.find?_eq_some hh howned']
    refine and_congr_right fun _ => ⟨?_, ?_⟩
    · rintro ⟨t, ht, rfl⟩
      obtain ⟨u, hu, htu⟩ := hgh.sites t ht
      exact ⟨u, hu, by rw [htu.policy, htu.path.leaf]⟩
    · rintro ⟨u, hu, rfl⟩
      obtain ⟨t, ht, htu⟩ := hgh.back u hu
      exact ⟨t, ht, by rw [htu.policy, htu.path.leaf]⟩
  rw [rangeOf?, rangeOf?, hfind]

/-- The range of a condition is of its node. -/
theorem id_of_rangeOf? {ds : List Demand} {n : Node} {s : String} (hs : n.id = .str s) {r : Range}
    (hr : rangeOf? ds n = .ok (some r)) : r.literal.node.id = n.id := by
  unfold rangeOf? at hr
  split at hr
  · cases hr
  · next d hfind =>
    obtain ⟨c, -, hc⟩ := Attempt.map_eq_ok.mp hr
    obtain ⟨i, -, rfl⟩ := Option.map_eq_some_iff.mp hc
    have halike := List.find?_some hfind
    rw [hs] at halike ⊢
    exact Json.alike_str_right.mp halike

end Lookups

section Sweeps

/-- Graphs that resemble each other have the same candidates of ranges on a variable. -/
theorem Resembles.thresholdsOn_eq (hgh : g.Resembles h) (hg : g.IsLegible) (hh : h.IsLegible)
    (howned : g.IsOwned) (howned' : h.IsOwned) {ds es : List Demand} (hds : g.IsTable ds)
    (hes : h.IsTable es) (x : String) :
    g.thresholdsOn ds (.str x) = h.thresholdsOn es (.str x) := by
  have hon : ∀ d ∈ ds, d.IsOn g := by
    intro d hd
    obtain ⟨t, ht, rfl⟩ := hds.sound d hd
    exact ⟨isOn_of_mem_sites ht _ List.mem_cons_self, hg.exists_policy_of_site ht⟩
  have hnode : ∀ n ∈ g.conditionsOn (.str x), n ∈ g.nodes :=
    fun n hn => (mem_conditionsOn_str.mp hn).1
  obtain ⟨found, hfound, -⟩ := Attempt.exists_mapM fun n hn => hg.exists_rangeOf? hon (hnode n hn)
  obtain ⟨found', hfound', hperm⟩ :=
    Attempt.exists_mapM_of_perm (hgh.conditionsOn_perm hg hh x) hfound
  have hranges : (h.conditionsOn (.str x)).mapM (rangeOf? es) = .ok found' := by
    rw [← hfound']
    refine (Attempt.mapM_congr fun n hn => ?_).symm
    exact hgh.rangeOf?_eq hg hh howned howned' hds hes
      (hnode n ((hgh.conditionsOn_perm hg hh x).mem_iff.mpr hn))
  have hof : ∀ r ∈ found.filterMap id, r.IsOn g ∧
      ∃ n ∈ g.nodes, rangeOf? ds n = .ok (some r) := by
    intro r hr
    obtain ⟨r?, hmem, rfl⟩ := List.mem_filterMap.mp hr
    obtain ⟨n, hn, hrange⟩ := Attempt.exists_of_mem_mapM hfound hmem
    obtain ⟨y, hy, hyon⟩ := hg.exists_rangeOf? hon (hnode n hn)
    obtain rfl := Except.ok.inj (hy.symm.trans hrange)
    exact ⟨hyon r rfl, n, hnode n hn, hrange⟩
  have harranged : arrangeRanges (found.filterMap id) = arrangeRanges (found'.filterMap id) := by
    refine arrangeRanges_eq_of_perm (hperm.symm.filterMap id)
      (fun r hr => hg.isOrderly (hof r hr).1) fun a ha b hb hid => ?_
    obtain ⟨-, n, hn, hrange⟩ := hof a ha
    obtain ⟨-, m, hm, hrange'⟩ := hof b hb
    obtain ⟨s, hs⟩ := hg.ids n hn
    obtain ⟨t, ht⟩ := hg.ids m hm
    rw [id_of_rangeOf? hs hrange, id_of_rangeOf? ht hrange'] at hid
    rw [hg.eq_of_id hn hm hid, hrange'] at hrange
    exact (Option.some.inj (Except.ok.inj hrange)).symm
  rw [thresholdsOn, thresholdsOn, hfound, hranges, Attempt.ok_bind, Attempt.ok_bind, harranged]

/-- The pass over ranges gives the same candidates over graphs that resemble each other. -/
theorem Resembles.incompatibleThresholds_eq (hgh : g.Resembles h) (hg : g.IsLegible)
    (hh : h.IsLegible) (howned : g.IsOwned) (howned' : h.IsOwned) :
    g.incompatibleThresholds = h.incompatibleThresholds := by
  obtain ⟨ds, hds, htable⟩ := hg.exists_isTable
  obtain ⟨es, hes, htable'⟩ := hh.exists_isTable
  obtain ⟨xs, hxs, -⟩ := hg.exists_subjects
  rw [incompatibleThresholds, incompatibleThresholds, hds, hes, ← hgh.subjects_eq hg hh, hxs]
  simp only [Attempt.ok_bind]
  refine congrArg (· >>= _) (Attempt.mapM_congr fun n hn => ?_)
  obtain ⟨x, -, rfl⟩ := List.mem_map.mp hn
  exact hgh.thresholdsOn_eq hg hh howned howned' htable htable' x

/-- The passes over ranges agree over graphs that resemble each other and share scopes. -/
theorem passAgrees_incompatibleThreshold (hg : g.IsLegible) (hh : h.IsLegible)
    (hgh : g.Resembles h) (hscopes : g.SharesScopes h) (howned : g.IsOwned) (howned' : h.IsOwned)
    (clear : Prop) : PassAgrees table clear g h .incompatibleThreshold := by
  obtain ⟨cs, hcs, hsound⟩ := hg.exists_incompatibleThresholds
  obtain ⟨ds, hds, hsound'⟩ := hh.exists_incompatibleThresholds
  obtain rfl : ds = cs := Except.ok.inj
    ((hds.symm.trans (hgh.incompatibleThresholds_eq hg hh howned howned').symm).trans hcs)
  refine ⟨ds, ds, hcs, hds, hsound, hsound', ?_⟩
  have hmarks : ds.map (·.mark g) = ds.map (·.mark h) := by
    refine List.map_congr_left fun c hc => ?_
    refine (hsound c hc).mark_eq (hsound' c hc) hgh.clauses fun a b ha hb =>
      hscopes.scope c.entities a b ?_ ?_
    · obtain ⟨s, hs, hpolicy⟩ := (hsound c hc).policies _ ha
      rwa [Json.str.inj hs]
    · obtain ⟨s, hs, hpolicy⟩ := (hsound c hc).policies _ hb
      rwa [Json.str.inj hs]
  rw [hmarks]
  exact ⟨fun _ => Iff.rfl, rfl, fun _ _ => rfl⟩

end Sweeps

end PolicyGraph
end Eligibility
