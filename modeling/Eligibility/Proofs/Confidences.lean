import Eligibility.Proofs.Intervals
import Eligibility.Proofs.Matchings
/-!
# The order of confidences

**Order.**  Confidences are ordered as numbers.  The smallest of several confidences is one of
them and not above any, the largest is one of them and not below any; which of two zeros it is
depends on their order, and nothing else does.

**Relations.**  A relation of confidences is respected where the smallest confidences, and the
largest ones, of lists that match are related in turn.

**Results.**
* `le_iff`: the order of numbers is that of their places.
* `least_le`, `le_greatest`: the extremes of several confidences.
* `isRespected_atMost`, `isRespected_same`, `isRespected_unsigned`: relations that are respected.
-/

namespace Eligibility

namespace Number

section Order

variable {x y z : Number}

theorem le_iff : x.le y = true ↔ x.isNaN = false ∧ y.isNaN = false ∧ x.place ≤ y.place := by
  by_cases hx : x.isNaN = true
  · cases x <;> simp_all [isNaN, le, lt, same, value?]
  by_cases hy : y.isNaN = true
  · cases y <;> cases x <;> simp_all [isNaN, le, lt, same, value?]
  rw [Bool.not_eq_true] at hx hy
  rw [le, Bool.or_eq_true, lt_iff hx hy, same_iff hx hy, ← le_iff_lt_or_eq]
  simp [hx, hy]

theorem le_refl (hx : x.isNaN = false) : x.le x = true := le_iff.mpr ⟨hx, hx, le_rfl⟩

theorem le_trans (hxy : x.le y = true) (hyz : y.le z = true) : x.le z = true := by
  obtain ⟨hx, -, hplace⟩ := le_iff.mp hxy
  obtain ⟨-, hz, hplace'⟩ := le_iff.mp hyz
  exact le_iff.mpr ⟨hx, hz, hplace.trans hplace'⟩

theorem same_of_le (hxy : x.le y = true) (hyx : y.le x = true) : x.same y = true := by
  obtain ⟨hx, hy, hplace⟩ := le_iff.mp hxy
  exact (same_iff hx hy).mpr (hplace.antisymm (le_iff.mp hyx).2.2)

theorem eq_of_same (hx : x ≠ negZero) (hy : y ≠ negZero) (h : x.same y = true) : x = y := by
  cases x <;> cases y <;> simp_all [same, value?]

end Order

section Extremes

variable {x y : Number} {xs : List Number}

theorem isNaN_of_isConfidence (h : Head.isConfidence x = true) : x.isNaN = false := by
  obtain ⟨q, hq, -⟩ := Head.isConfidence_iff.mp h
  exact isNaN_of_value? hq

theorem min_le_left (hx : x.isNaN = false) : (x.min y).le x = true := by
  unfold min
  split
  next hlt => rw [le, hlt, Bool.true_or]
  next => exact le_refl hx

theorem min_le_right (hx : x.isNaN = false) (hy : y.isNaN = false) : (x.min y).le y = true := by
  unfold min
  split
  next => exact le_refl hy
  next hlt =>
    rw [Bool.not_eq_true] at hlt
    refine le_iff.mpr ⟨hx, hy, not_lt.mp fun h => ?_⟩
    rw [(lt_iff hy hx).mpr h] at hlt
    cases hlt

theorem le_max_left (hx : x.isNaN = false) : x.le (x.max y) = true := by
  unfold max
  split
  next hlt => rw [le, hlt, Bool.true_or]
  next => exact le_refl hx

theorem le_max_right (hx : x.isNaN = false) (hy : y.isNaN = false) : y.le (x.max y) = true := by
  unfold max
  split
  next => exact le_refl hy
  next hlt =>
    rw [Bool.not_eq_true] at hlt
    refine le_iff.mpr ⟨hy, hx, not_lt.mp fun h => ?_⟩
    rw [(lt_iff hx hy).mpr h] at hlt
    cases hlt

theorem foldl_min_le (hx : x.isNaN = false) (hxs : ∀ y ∈ xs, y.isNaN = false) :
    ∀ y ∈ x :: xs, (xs.foldl min x).le y = true := by
  induction xs generalizing x with
  | nil => simpa using le_refl hx
  | cons z xs ih =>
      obtain ⟨hz, hxs⟩ := List.forall_mem_cons.mp hxs
      have hmin : (x.min z).isNaN = false := by
        rcases min_eq x z with h | h <;> rw [h] <;> assumption
      obtain ⟨hfirst, hrest⟩ := List.forall_mem_cons.mp (ih hmin hxs)
      refine List.forall_mem_cons.mpr ⟨le_trans hfirst (min_le_left hx), ?_⟩
      exact List.forall_mem_cons.mpr ⟨le_trans hfirst (min_le_right hx hz), hrest⟩

theorem le_foldl_max (hx : x.isNaN = false) (hxs : ∀ y ∈ xs, y.isNaN = false) :
    ∀ y ∈ x :: xs, y.le (xs.foldl max x) = true := by
  induction xs generalizing x with
  | nil => simpa using le_refl hx
  | cons z xs ih =>
      obtain ⟨hz, hxs⟩ := List.forall_mem_cons.mp hxs
      have hmax : (x.max z).isNaN = false := by
        rcases max_eq x z with h | h <;> rw [h] <;> assumption
      obtain ⟨hfirst, hrest⟩ := List.forall_mem_cons.mp (ih hmax hxs)
      refine List.forall_mem_cons.mpr ⟨le_trans (le_max_left hx) hfirst, ?_⟩
      exact List.forall_mem_cons.mpr ⟨le_trans (le_max_right hx hz) hfirst, hrest⟩

/-- The smallest of several confidences is not above any of them. -/
theorem least_le (h : ∀ y ∈ xs, Head.isConfidence y = true) (hy : y ∈ xs) :
    (least xs).le y = true := by
  cases xs with
  | nil => cases hy
  | cons x xs =>
      obtain ⟨hx, hxs⟩ := List.forall_mem_cons.mp h
      exact foldl_min_le (isNaN_of_isConfidence hx)
        (fun z hz => isNaN_of_isConfidence (hxs z hz)) y hy

/-- The largest of several confidences is not below any of them. -/
theorem le_greatest (h : ∀ y ∈ xs, Head.isConfidence y = true) (hy : y ∈ xs) :
    y.le (greatest xs) = true := by
  cases xs with
  | nil => cases hy
  | cons x xs =>
      obtain ⟨hx, hxs⟩ := List.forall_mem_cons.mp h
      exact le_foldl_max (isNaN_of_isConfidence hx)
        (fun z hz => isNaN_of_isConfidence (hxs z hz)) y hy

theorem least_mem (h : xs ≠ []) : least xs ∈ xs := by
  cases xs with
  | nil => exact absurd rfl h
  | cons x xs => exact foldl_mem min_eq xs x

theorem greatest_mem (h : xs ≠ []) : greatest xs ∈ xs := by
  cases xs with
  | nil => exact absurd rfl h
  | cons x xs => exact foldl_mem max_eq xs x

end Extremes

section Relations

/-- Whether a relation of confidences carries over to the extremes of lists that match. -/
structure IsRespected (K : Number → Number → Prop) : Prop where
  confidence {x y : Number} : K x y →
    Head.isConfidence x = true ∧ Head.isConfidence y = true
  one : K one one
  least {xs ys : List Number} : xs ≠ [] → Matched K xs ys → K (least xs) (least ys)
  greatest {xs ys : List Number} : xs ≠ [] → Matched K xs ys → K (greatest xs) (greatest ys)

/-- Confidences the first of which is not above the second one. -/
def AtMost (x y : Number) : Prop :=
  Head.isConfidence x = true ∧ Head.isConfidence y = true ∧ x.le y = true

variable {K : Number → Number → Prop} {xs ys : List Number}

theorem ne_nil_of_matched (h : Matched K xs ys) (hxs : xs ≠ []) : ys ≠ [] := by
  rintro rfl
  exact hxs (List.eq_nil_of_length_eq_zero h.length_eq)

theorem isRespected_atMost : IsRespected AtMost where
  confidence h := ⟨h.1, h.2.1⟩
  one := ⟨by decide +kernel, by decide +kernel, by decide +kernel⟩
  least hxs h := by
    obtain ⟨x, hx, hxy⟩ := h.exists_left (least_mem (ne_nil_of_matched h hxs))
    have hall := fun z hz => (h.exists_right (x := z) hz).elim fun _ hw => hw.2.1
    exact ⟨hall _ (least_mem hxs), hxy.2.1, le_trans (least_le hall hx) hxy.2.2⟩
  greatest hxs h := by
    obtain ⟨y, hy, hxy⟩ := h.exists_right (greatest_mem hxs)
    have hall := fun z hz => (h.exists_left (y := z) hz).elim fun _ hw => hw.2.2.1
    exact ⟨hxy.1, hall _ (greatest_mem (ne_nil_of_matched h hxs)),
      le_trans hxy.2.2 (le_greatest hall hy)⟩

/-- Confidences that are the same number. -/
def Same (x y : Number) : Prop := AtMost x y ∧ AtMost y x

theorem isRespected_same : IsRespected Same where
  confidence h := isRespected_atMost.confidence h.1
  one := ⟨isRespected_atMost.one, isRespected_atMost.one⟩
  least hxs h := ⟨isRespected_atMost.least hxs (h.imp fun _ _ _ _ hxy => hxy.1),
    isRespected_atMost.least (ne_nil_of_matched h hxs) (h.symm.imp fun _ _ _ _ hxy => hxy.2)⟩
  greatest hxs h := ⟨isRespected_atMost.greatest hxs (h.imp fun _ _ _ _ hxy => hxy.1),
    isRespected_atMost.greatest (ne_nil_of_matched h hxs) (h.symm.imp fun _ _ _ _ hxy => hxy.2)⟩

/-- A confidence other than the zero with a minus sign, twice. -/
structure Unsigned (x y : Number) : Prop where
  confidence : Head.isConfidence x = true
  ne_negZero : x ≠ negZero
  eq : y = x

theorem Unsigned.same {x y : Number} (h : Unsigned x y) : Same x y := by
  obtain ⟨hx, -, rfl⟩ := h
  have hle := le_refl (isNaN_of_isConfidence hx)
  exact ⟨⟨hx, hx, hle⟩, hx, hx, hle⟩

theorem unsigned_of_same {x y : Number} (h : Same x y) (hx : x ≠ negZero) (hy : y ≠ negZero) :
    Unsigned x y :=
  ⟨h.1.1, hx, (eq_of_same hx hy (same_of_le h.1.2.2 h.2.2.2)).symm⟩

theorem isRespected_unsigned : IsRespected Unsigned where
  confidence h := ⟨h.confidence, h.eq ▸ h.confidence⟩
  one := ⟨by decide +kernel, by decide, rfl⟩
  least hxs h := by
    obtain ⟨_, -, hx⟩ := h.exists_right (least_mem hxs)
    obtain ⟨_, -, hy⟩ := h.exists_left (least_mem (ne_nil_of_matched h hxs))
    exact unsigned_of_same (isRespected_same.least hxs (h.imp fun _ _ _ _ hxy => hxy.same))
      hx.ne_negZero (hy.eq ▸ hy.ne_negZero)
  greatest hxs h := by
    obtain ⟨_, -, hx⟩ := h.exists_right (greatest_mem hxs)
    obtain ⟨_, -, hy⟩ := h.exists_left (greatest_mem (ne_nil_of_matched h hxs))
    exact unsigned_of_same (isRespected_same.greatest hxs (h.imp fun _ _ _ _ hxy => hxy.same))
      hx.ne_negZero (hy.eq ▸ hy.ne_negZero)

end Relations

end Number
end Eligibility
