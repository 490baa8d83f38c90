import Mathlib.Data.List.Chain
import Mathlib.Data.List.Nodup
import Mathlib.Data.List.Perm.Subperm
import Mathlib.Data.List.Rotate
import Mathlib.Order.Lattice
import Eligibility.Conflict.Cycle
/-!
# The search for cycles

**Cycles.**  A cycle is a list of different items of which each one leads to the next
one and the last one to the first.  It may be turned: any of its items can come first.

**Search.**  Vertices of a cycle are never stripped, since each has an arc that leads on
along the cycle and one that leads to it.  From its smallest vertex the rest of a cycle
is a way through later vertices, which is among those that are followed.

**Results.**
* `IsCycle.turn`: turned cycles are cycles.
* `eq_of_isRotated`: of the turned forms of a cycle one begins with the least item.
* `mem_cycles`: every cycle from its smallest vertex is found.
* `isCycle_of_mem_cycles`: what is found is a cycle.
* `nodup_cycles`: no cycle is found twice.
-/

namespace Eligibility

section Cycles

variable {α β : Type} {R : α → α → Prop} {S : β → β → Prop} {xs ys : List α}

/-- Different items of which each one leads to the next one, and the last one to the first. -/
structure IsCycle (R : α → α → Prop) (xs : List α) : Prop where
  distinct : xs.Nodup
  closed : ∃ x r, xs = x :: r ∧ (x :: (r ++ [x])).IsChain R

theorem IsCycle.imp {S : α → α → Prop} (h : IsCycle R xs)
    (hRS : ∀ a ∈ xs, ∀ b ∈ xs, R a b → S a b) : IsCycle S xs := by
  obtain ⟨x, r, rfl, hchain⟩ := h.closed
  have hmem : ∀ a ∈ x :: (r ++ [x]), a ∈ x :: r := by simp [or_comm]
  refine ⟨h.distinct, x, r, rfl, hchain.imp_of_mem_imp fun a b ha hb => ?_⟩
  exact hRS a (hmem a ha) b (hmem b hb)

theorem IsCycle.map {f : α → β} (hf : ∀ a ∈ xs, ∀ b ∈ xs, f a = f b → a = b)
    (hRS : ∀ a ∈ xs, ∀ b ∈ xs, R a b → S (f a) (f b)) (h : IsCycle R xs) :
    IsCycle S (xs.map f) := by
  obtain ⟨x, r, rfl, hchain⟩ := (h.imp (S := fun a b => S (f a) (f b)) hRS).closed
  refine ⟨h.distinct.map_on hf, f x, r.map f, rfl, ?_⟩
  have hmap := (List.isChain_map f).mpr hchain
  rwa [List.map_cons, List.map_append] at hmap

/-- A cycle may begin with any of its items. -/
theorem IsCycle.turn (h : IsCycle R (xs ++ ys)) : IsCycle R (ys ++ xs) := by
  obtain ⟨z, r, hzr, hchain⟩ := h.closed
  refine ⟨(List.perm_append_comm.nodup_iff).mp h.distinct, ?_⟩
  cases xs with
  | nil => exact ⟨z, r, by simpa using hzr, hchain⟩
  | cons x xs =>
      cases ys with
      | nil => exact ⟨z, r, by simpa using hzr, hchain⟩
      | cons y ys =>
          obtain ⟨rfl, rfl⟩ : z = x ∧ r = xs ++ y :: ys := by simpa [eq_comm] using hzr
          have hsplit : ((z :: xs) ++ y :: (ys ++ [z])).IsChain R := by simpa using hchain
          obtain ⟨hfirst, hsecond⟩ := List.isChain_split.mp hsplit
          refine ⟨y, ys ++ z :: xs, rfl, ?_⟩
          have hturned : ((y :: ys) ++ z :: (xs ++ [y])).IsChain R :=
            List.isChain_split.mpr ⟨hsecond, hfirst⟩
          simpa using hturned

/-- Every item of a cycle leads to an item of it. -/
theorem IsCycle.exists_next (h : IsCycle R xs) {a : α} (ha : a ∈ xs) : ∃ b ∈ xs, R a b := by
  obtain ⟨before, after, rfl⟩ := List.append_of_mem ha
  obtain ⟨x, r, hxr, hchain⟩ := h.turn.closed
  obtain ⟨rfl, rfl⟩ : x = a ∧ r = after ++ before := by simpa [eq_comm] using hxr
  cases hrest : after ++ before with
  | nil =>
      rw [hrest] at hchain
      exact ⟨x, ha, (List.isChain_cons_cons.mp hchain).1⟩
  | cons y s =>
      rw [hrest] at hchain
      have hy : y ∈ after ++ before := by simp [hrest]
      refine ⟨y, ?_, (List.isChain_cons_cons.mp hchain).1⟩
      rcases List.mem_append.mp hy with hy | hy <;> simp [hy]

/-- Every item of a cycle is led to from an item of it. -/
theorem IsCycle.exists_previous (h : IsCycle R xs) {b : α} (hb : b ∈ xs) : ∃ a ∈ xs, R a b := by
  obtain ⟨before, after, rfl⟩ := List.append_of_mem hb
  obtain ⟨x, r, hxr, hchain⟩ := h.turn.closed
  obtain ⟨rfl, rfl⟩ : x = b ∧ r = after ++ before := by simpa [eq_comm] using hxr
  rcases List.eq_nil_or_concat (after ++ before) with hrest | ⟨s, y, hrest⟩
  · rw [hrest] at hchain
    exact ⟨x, hb, (List.isChain_cons_cons.mp hchain).1⟩
  · have hy : y ∈ after ++ before := by simp [hrest]
    refine ⟨y, ?_, ?_⟩
    · rcases List.mem_append.mp hy with hy | hy <;> simp [hy]
    · rw [hrest, List.concat_eq_append, List.append_assoc] at hchain
      have hend : ((x :: s) ++ y :: [x]).IsChain R := hchain
      exact (List.isChain_cons_cons.mp (List.isChain_split.mp hend).2).1

/-- What passes from item to item along a cycle holds of all its items. -/
theorem IsCycle.forall_of_mem (h : IsCycle R xs) {P : α → Prop} (hP : ∀ a b, R a b → P a → P b)
    {a : α} (ha : a ∈ xs) (hPa : P a) : ∀ b ∈ xs, P b := by
  obtain ⟨before, after, rfl⟩ := List.append_of_mem ha
  obtain ⟨x, r, hxr, hchain⟩ := h.turn.closed
  obtain ⟨rfl, rfl⟩ : x = a ∧ r = after ++ before := by simpa [eq_comm] using hxr
  have hall : ∀ b ∈ x :: (after ++ before ++ [x]), P b :=
    hchain.induction P _ (fun {y z} hyz hy => hP y z hyz hy) fun _ => hPa
  intro b hb
  refine hall b ?_
  simp only [List.mem_append, List.mem_cons] at hb ⊢
  tauto

/-- Of three items or fewer any two are neighbours on a cycle. -/
theorem IsCycle.related_of_length_le (h : IsCycle R xs) (hlength : xs.length ≤ 3) {a b : α}
    (ha : a ∈ xs) (hb : b ∈ xs) (hne : a ≠ b) : R a b ∨ R b a := by
  obtain ⟨x, r, rfl, hchain⟩ := h.closed
  match r with
  | [] => simp_all
  | [y] =>
      obtain ⟨hxy, hyx⟩ : R x y ∧ R y x := by simpa using hchain
      simp only [List.mem_cons, List.not_mem_nil, or_false] at ha hb
      rcases ha with rfl | rfl <;> rcases hb with rfl | rfl <;> simp_all
  | [y, z] =>
      obtain ⟨hxy, hyz, hzx⟩ : R x y ∧ R y z ∧ R z x := by simpa using hchain
      simp only [List.mem_cons, List.not_mem_nil, or_false] at ha hb
      rcases ha with rfl | rfl | rfl <;> rcases hb with rfl | rfl | rfl <;> simp_all
  | _ :: _ :: _ :: _ =>
      simp only [List.length_cons] at hlength
      omega

/-- Every turned form of a cycle is a cycle. -/
theorem IsCycle.of_isRotated (h : IsCycle R xs) (hxy : xs ~r ys) : IsCycle R ys := by
  obtain ⟨n, rfl⟩ := hxy
  rw [List.rotate_eq_drop_append_take_mod]
  refine IsCycle.turn ?_
  rwa [List.take_append_drop]

end Cycles

section Beginnings

variable {α : Type} [LinearOrder α] {xs ys : List α}

/-- Whether the first item of a list is its least one. -/
def BeginsLeast (xs : List α) : Prop := ∃ x r, xs = x :: r ∧ ∀ y ∈ xs, x ≤ y

/-- Of the turned forms of a list of different items only one begins with the least item. -/
theorem eq_of_isRotated (h : xs ~r ys) (hxs : xs.Nodup) (hx : BeginsLeast xs)
    (hy : BeginsLeast ys) : xs = ys := by
  obtain ⟨x, r, rfl, hleast⟩ := hx
  obtain ⟨y, s, rfl, hleast'⟩ := hy
  obtain rfl : x = y := le_antisymm (hleast y (h.mem_iff.mpr List.mem_cons_self))
    (hleast' x (h.mem_iff.mp List.mem_cons_self))
  obtain ⟨n, hn, hrotate⟩ := List.isRotated_iff_mod.mp h
  rcases hn.lt_or_eq with hlt | rfl
  · have hhead : (x :: r)[n]? = (x :: r)[0]? := by
      rw [← List.head?_rotate hlt, hrotate]
      rfl
    obtain rfl : n = 0 := (List.getElem?_inj hlt hxs).mp hhead
    rwa [List.rotate_zero] at hrotate
  · rwa [List.rotate_length] at hrotate

end Beginnings

namespace Digraph

variable {d : Digraph} {vs : List Nat}

/-- Whether an arc leads from one vertex to another one. -/
def HasArc (d : Digraph) (v w : Nat) : Prop := (v, w) ∈ d.arcs

theorem mem_successors {v w : Nat} : w ∈ d.successors v ↔ d.HasArc v w := by
  simp [successors, HasArc]

section Stripping

/-- A cycle is kept when a graph is stripped. -/
theorem strip_isCycle (h : IsCycle d.HasArc vs) (hvs : vs ⊆ d.vertices) :
    IsCycle d.strip.HasArc vs ∧ vs ⊆ d.strip.vertices := by
  have hkept : vs ⊆ d.strip.vertices := by
    intro v hv
    obtain ⟨w, -, hout⟩ := h.exists_next hv
    obtain ⟨u, -, hin⟩ := h.exists_previous hv
    refine List.mem_filter.mpr ⟨hvs hv, ?_⟩
    rw [isThrough, Bool.and_eq_true, List.any_eq_true, List.any_eq_true]
    exact ⟨⟨(v, w), hout, by simp⟩, (u, v), hin, by simp⟩
  refine ⟨h.imp fun v hv w hw harc => ?_, hkept⟩
  refine List.mem_filter.mpr ⟨harc, ?_⟩
  rw [Bool.and_eq_true, List.contains_iff_mem, List.contains_iff_mem]
  exact ⟨hkept hv, hkept hw⟩

theorem core_isCycle (fuel : Nat) (h : IsCycle d.HasArc vs) (hvs : vs ⊆ d.vertices) :
    IsCycle (core fuel d).HasArc vs ∧ vs ⊆ (core fuel d).vertices := by
  induction fuel generalizing d with
  | zero => exact ⟨h, hvs⟩
  | succ fuel ih =>
      rw [core]
      split
      · exact ⟨h, hvs⟩
      · obtain ⟨hstrip, hkept⟩ := strip_isCycle h hvs
        exact ih hstrip hkept

/-- Nothing is added when a graph is stripped. -/
theorem hasArc_of_core {fuel v w : Nat} (h : (core fuel d).HasArc v w) : d.HasArc v w := by
  induction fuel generalizing d with
  | zero => exact h
  | succ fuel ih =>
      rw [core] at h
      split at h
      · exact h
      · exact (List.mem_filter.mp (ih h)).1

end Stripping

section Ways

/-- A way back through later vertices is followed, by induction on what is left of it. -/
theorem mem_waysBack {start fuel v : Nat} {way r : List Nat}
    (hchain : (v :: (r ++ [start])).IsChain d.HasArc) (hr : r.Nodup)
    (hfresh : ∀ w ∈ r, start < w ∧ w ∉ way) (hfuel : r.length < fuel) :
    way ++ r ∈ waysBack d start fuel way v := by
  induction r generalizing fuel way v with
  | nil =>
      obtain ⟨fuel, rfl⟩ : ∃ n, fuel = n + 1 := ⟨fuel - 1, by simp at hfuel; omega⟩
      have harc : d.HasArc v start := (List.isChain_cons_cons.mp hchain).1
      rw [waysBack]
      exact List.mem_flatMap.mpr ⟨start, mem_successors.mpr harc, by simp⟩
  | cons w r ih =>
      obtain ⟨fuel, rfl⟩ : ∃ n, fuel = n + 1 := ⟨fuel - 1, by omega⟩
      obtain ⟨harc, hrest⟩ := List.isChain_cons_cons.mp hchain
      obtain ⟨hw, hr⟩ := List.nodup_cons.mp hr
      obtain ⟨hlater, hnew⟩ := hfresh w (by simp)
      have hrestFresh : ∀ x ∈ r, start < x ∧ x ∉ way ++ [w] := by
        intro x hx
        obtain ⟨hxlater, hxnew⟩ := hfresh x (List.mem_cons_of_mem _ hx)
        refine ⟨hxlater, ?_⟩
        rw [List.mem_append, List.mem_singleton]
        rintro (hmem | rfl)
        · exact hxnew hmem
        · exact hw hx
      rw [List.length_cons] at hfuel
      have hfound : way ++ [w] ++ r ∈ waysBack d start fuel (way ++ [w]) w :=
        ih hrest hr hrestFresh (by omega)
      rw [waysBack]
      refine List.mem_flatMap.mpr ⟨w, mem_successors.mpr harc, ?_⟩
      rw [if_neg (by omega), if_neg (by simp [hnew]; omega)]
      simpa using hfound

/-- A way along arcs from one vertex to another one that passes no vertex twice. -/
structure IsWay (d : Digraph) (start : Nat) (way : List Nat) (v : Nat) : Prop where
  start : way.head? = some start
  stop : ∃ before, way = before ++ [v]
  chain : way.IsChain d.HasArc
  distinct : way.Nodup

theorem IsWay.chain_append {start v w : Nat} {way : List Nat} (h : d.IsWay start way v)
    (harc : d.HasArc v w) : (way ++ [w]).IsChain d.HasArc := by
  obtain ⟨before, rfl⟩ := h.stop
  rw [List.append_assoc]
  exact List.isChain_split.mpr ⟨h.chain, List.isChain_pair.mpr harc⟩

theorem IsWay.push {start v w : Nat} {way : List Nat} (h : d.IsWay start way v)
    (harc : d.HasArc v w) (hw : w ∉ way) : d.IsWay start (way ++ [w]) w where
  start := by
    obtain ⟨before, rfl⟩ := h.stop
    rw [← h.start]
    cases before <;> rfl
  stop := ⟨way, rfl⟩
  chain := h.chain_append harc
  distinct := by
    refine List.Nodup.append h.distinct (List.nodup_singleton w) ?_
    simpa using hw

theorem IsWay.isCycle {start v : Nat} {way : List Nat} (h : d.IsWay start way v)
    (harc : d.HasArc v start) : IsCycle d.HasArc way := by
  obtain ⟨r, rfl⟩ := List.head?_eq_some_iff.mp h.start
  exact ⟨h.distinct, start, r, rfl, h.chain_append harc⟩

/-- The ways that are found are cycles. -/
theorem isCycle_of_mem_waysBack {start fuel v : Nat} {way found : List Nat}
    (hfound : found ∈ waysBack d start fuel way v) (hway : d.IsWay start way v) :
    IsCycle d.HasArc found := by
  induction fuel generalizing way v with
  | zero => simp [waysBack] at hfound
  | succ fuel ih =>
      rw [waysBack] at hfound
      obtain ⟨w, hw, hfound⟩ := List.mem_flatMap.mp hfound
      have harc := mem_successors.mp hw
      split at hfound
      · next hstart =>
        rw [List.mem_singleton.mp hfound]
        exact hway.isCycle (hstart ▸ harc)
      · split at hfound
        · simp at hfound
        · next hnew => exact ih hfound (hway.push harc (fun hmem => hnew (.inr hmem)))

end Ways

/-- Every cycle is found from its smallest vertex. -/
theorem mem_cycles {v : Nat} {r : List Nat} (h : IsCycle d.HasArc (v :: r))
    (hvs : v :: r ⊆ d.vertices) (hleast : ∀ w ∈ r, v < w) : v :: r ∈ d.cycles := by
  obtain ⟨hcore, hkept⟩ := core_isCycle d.vertices.length h hvs
  obtain ⟨x, s, hxs, hchain⟩ := hcore.closed
  obtain ⟨rfl, rfl⟩ := List.cons_eq_cons.mp hxs
  obtain ⟨-, hr⟩ := List.nodup_cons.mp h.distinct
  have hlength : (v :: r).length ≤ (core d.vertices.length d).vertices.length :=
    (List.subperm_of_subset h.distinct hkept).length_le
  have hfresh : ∀ w ∈ r, v < w ∧ w ∉ [v] := by
    intro w hw
    have hlater := hleast w hw
    refine ⟨hlater, ?_⟩
    rw [List.mem_singleton]
    omega
  refine List.mem_flatMap.mpr ⟨v, hkept (by simp), ?_⟩
  refine mem_waysBack hchain hr hfresh ?_
  rw [List.length_cons] at hlength
  omega

/-- What is found is a cycle. -/
theorem isCycle_of_mem_cycles (h : vs ∈ d.cycles) : IsCycle d.HasArc vs := by
  obtain ⟨v, -, hfound⟩ := List.mem_flatMap.mp h
  have hway : (core d.vertices.length d).IsWay v [v] v :=
    ⟨rfl, ⟨[], rfl⟩, List.isChain_singleton v, List.nodup_singleton v⟩
  exact (isCycle_of_mem_waysBack hfound hway).imp fun _ _ _ _ => hasArc_of_core

/-- Every cycle is found up to where it begins. -/
theorem exists_mem_cycles (h : IsCycle d.HasArc vs) (hvs : vs ⊆ d.vertices) :
    ∃ ws ∈ d.cycles, ws ~r vs := by
  obtain ⟨m, hm⟩ : ∃ m, vs.min? = some m := by
    obtain ⟨x, r, rfl, -⟩ := h.closed
    exact ⟨_, rfl⟩
  obtain ⟨hmem, hmin⟩ := List.min?_eq_some_iff.mp hm
  obtain ⟨before, after, rfl⟩ := List.append_of_mem hmem
  have hperm : ((m :: after) ++ before).Perm (before ++ m :: after) := List.perm_append_comm
  have hturned : IsCycle d.HasArc (m :: (after ++ before)) := h.turn
  have hrotated : ((m :: after) ++ before) ~r (before ++ m :: after) := List.isRotated_append
  refine ⟨_, mem_cycles hturned (fun v hv => hvs (hperm.mem_iff.mp hv)) fun w hw => ?_,
    hrotated⟩
  have hle := hmin w (hperm.mem_iff.mp (List.mem_cons_of_mem _ hw))
  have hne : m ≠ w := by
    rintro rfl
    exact (List.nodup_cons.mp hturned.distinct).1 hw
  omega

section Uniqueness

/-- What is found goes on from the way that led there. -/
theorem prefix_of_mem_waysBack {start fuel v : Nat} {way found : List Nat}
    (h : found ∈ waysBack d start fuel way v) : way <+: found := by
  induction fuel generalizing way v with
  | zero => simp [waysBack] at h
  | succ fuel ih =>
      rw [waysBack] at h
      obtain ⟨w, -, h⟩ := List.mem_flatMap.mp h
      split at h
      · rw [List.mem_singleton.mp h]
      · split at h
        · simp at h
        · exact (List.prefix_append way [w]).trans (ih h)

theorem nodup_eraseDups {α : Type} [DecidableEq α] (xs : List α) : xs.eraseDups.Nodup := by
  induction hn : xs.length using Nat.strong_induction_on generalizing xs with
  | _ n ih =>
    cases xs with
    | nil => simp
    | cons x r =>
        rw [List.eraseDups_cons, List.nodup_cons]
        refine ⟨by simp, ih _ ?_ _ rfl⟩
        rw [← hn, List.length_cons]
        exact Nat.lt_succ_of_le (List.length_filter_le _ _)

/-- No way back is found twice: ways that part never meet again. -/
theorem nodup_waysBack (d : Digraph) (start fuel : Nat) (way : List Nat) (v : Nat) :
    (waysBack d start fuel way v).Nodup := by
  induction fuel generalizing way v with
  | zero => simp [waysBack]
  | succ fuel ih =>
      rw [waysBack, List.nodup_flatMap]
      refine ⟨fun w _ => ?_, ?_⟩
      · split
        · exact List.nodup_singleton way
        · split
          · exact List.nodup_nil
          · exact ih _ _
      · have hsuccessors : (d.successors v).Nodup := nodup_eraseDups _
        refine hsuccessors.imp fun {w x} hne found hw hx => ?_
        have hnext : ∀ u, found ∈ (if u = start then [way] else
            if u < start ∨ u ∈ way then [] else waysBack d start fuel (way ++ [u]) u) →
              u = start ∧ found = way ∨ way ++ [u] <+: found := by
          intro u hu
          split at hu
          · next hstart => exact .inl ⟨hstart, List.mem_singleton.mp hu⟩
          · split at hu
            · cases hu
            · exact .inr (prefix_of_mem_waysBack hu)
        have hlonger : ∀ u, ¬ way ++ [u] <+: way := by
          intro u hu
          have hlength := hu.length_le
          rw [List.length_append, List.length_singleton] at hlength
          omega
        rcases hnext w hw with ⟨hstart, rfl⟩ | hprefix
        · rcases hnext x hx with ⟨hstart', -⟩ | hprefix'
          · exact hne (hstart.trans hstart'.symm)
          · exact hlonger x hprefix'
        · rcases hnext x hx with ⟨-, rfl⟩ | hprefix'
          · exact hlonger w hprefix
          · have hsame := (List.prefix_of_prefix_length_le hprefix hprefix' (by simp)).eq_of_length
              (by simp)
            exact hne (List.singleton_inj.mp (List.append_cancel_left hsame))

/-- The vertices of the ways that are found do not come before the start. -/
theorem le_of_mem_waysBack {start fuel v : Nat} {way found : List Nat}
    (h : found ∈ waysBack d start fuel way v) (hway : ∀ w ∈ way, start ≤ w) :
    ∀ w ∈ found, start ≤ w := by
  induction fuel generalizing way v with
  | zero => simp [waysBack] at h
  | succ fuel ih =>
      rw [waysBack] at h
      obtain ⟨w, -, h⟩ := List.mem_flatMap.mp h
      split at h
      · rwa [List.mem_singleton.mp h]
      · split at h
        · simp at h
        · refine ih h (List.forall_mem_append.mpr ⟨hway, List.forall_mem_singleton.mpr ?_⟩)
          omega

/-- What is found begins with its smallest vertex. -/
theorem beginsLeast_of_mem_cycles (h : vs ∈ d.cycles) : BeginsLeast vs := by
  obtain ⟨v, -, hfound⟩ := List.mem_flatMap.mp h
  obtain ⟨r, rfl⟩ := prefix_of_mem_waysBack hfound
  exact ⟨v, r, rfl, le_of_mem_waysBack hfound (List.forall_mem_singleton.mpr le_rfl)⟩

theorem vertices_core_sublist (fuel : Nat) (d : Digraph) :
    (core fuel d).vertices.Sublist d.vertices := by
  induction fuel generalizing d with
  | zero => exact List.Sublist.refl _
  | succ fuel ih =>
      rw [core]
      split
      · exact List.Sublist.refl _
      · exact (ih d.strip).trans List.filter_sublist

/-- No cycle is found twice. -/
theorem nodup_cycles (hd : d.vertices.Nodup) : d.cycles.Nodup := by
  refine List.nodup_flatMap.mpr ⟨fun v _ => nodup_waysBack _ _ _ _ _, ?_⟩
  refine (hd.sublist (vertices_core_sublist _ d)).imp fun {v w} hne found hv hw => hne ?_
  obtain ⟨r, rfl⟩ := prefix_of_mem_waysBack hv
  obtain ⟨s, hs⟩ := prefix_of_mem_waysBack hw
  exact (List.cons.inj hs).1.symm

end Uniqueness

end Digraph
end Eligibility
