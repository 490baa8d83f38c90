import Eligibility.Complexity
import Eligibility.Proofs.Doubles
/-!
# How far rounding goes

**Nearest.**  The whole number that is taken is at most a half away, and it passes no whole bound.
A rational to some places is at most a half of its last place away, and a double at most a half of
its own.

**Arithmetic.**  Exact arithmetic and double precision have in common what scores rest on: results
below zero do not arise, small whole bounds are kept, errors are small, and a sum of numbers
between zero and one does not pass their count.  In double precision such a sum gets stuck where
one more is lost to rounding, as the tie goes to the even neighbour.

**Results.**
* `abs_toPlaces_sub_le`, `Number.abs_keep_sub_le`: how far a rounded rational is away.
* `isArithmetic_id`, `isArithmetic_keep`: exact arithmetic and double precision.
* `IsArithmetic.abs_total_sub_le`: how far a sum is away.
-/

namespace Eligibility
namespace Rounding

section Nearest

/-- The nearest whole number is at most a half away. -/
theorem halfEven_bounds (n : ℕ) {d : ℕ} (hd : 0 < d) :
    d * (2 * halfEven n d) ≤ 2 * n + d ∧ 2 * n ≤ d * (2 * halfEven n d) + d := by
  have hdiv := Nat.div_add_mod n d
  have hmod := Nat.mod_lt n hd
  unfold halfEven
  split
  · rw [Nat.mul_left_comm]
    omega
  · rw [Nat.mul_left_comm, Nat.mul_succ]
    omega

/-- A tie above an even number goes to that number. -/
theorem halfEven_le_of_even {n d k : ℕ} (hd : 0 < d) (hk : k % 2 = 0)
    (h : 2 * n ≤ d * (2 * k + 1)) : halfEven n d ≤ k := by
  have hdiv := Nat.div_add_mod n d
  have hle : n / d ≤ k := by
    by_contra hlt
    have hmul : d * (k + 1) ≤ d * (n / d) := Nat.mul_le_mul_left d (by omega)
    rw [Nat.mul_succ] at hmul h
    rw [Nat.mul_left_comm] at h
    omega
  rcases hle.lt_or_eq with hlt | heq
  · unfold halfEven
    split <;> omega
  · rw [heq] at hdiv
    rw [Nat.mul_succ, Nat.mul_left_comm] at h
    have hrest : 2 * (n % d) < d ∨ 2 * (n % d) = d ∧ n / d % 2 = 0 := by
      rw [heq]
      omega
    rw [halfEven, if_pos hrest, heq]

theorem mul_den_eq_natAbs {s : ℚ} (hs : 0 ≤ s) : s * s.den = s.num.natAbs := by
  rw [Rat.mul_den_eq_num, ← Int.cast_natCast, Int.natAbs_of_nonneg (Rat.num_nonneg.mpr hs)]

theorem abs_halfEven_sub_le {s : ℚ} (hs : 0 ≤ s) :
    |(halfEven s.num.natAbs s.den : ℚ) - s| ≤ 1 / 2 := by
  have hd : (0 : ℚ) < s.den := by exact_mod_cast s.den_pos
  obtain ⟨hlow, hhigh⟩ := halfEven_bounds s.num.natAbs s.den_pos
  have hmul := mul_den_eq_natAbs hs
  generalize halfEven s.num.natAbs s.den = m at hlow hhigh
  have hlow : (s.den : ℚ) * (2 * m) ≤ 2 * s.num.natAbs + s.den := by exact_mod_cast hlow
  have hhigh : 2 * (s.num.natAbs : ℚ) ≤ s.den * (2 * m) + s.den := by exact_mod_cast hhigh
  rw [abs_le]
  constructor
  · by_contra hlt
    nlinarith
  · by_contra hlt
    nlinarith

/-- The nearest whole number passes no whole bound. -/
theorem halfEven_le_of_le {s : ℚ} (hs : 0 ≤ s) {k : ℕ} (h : s ≤ k) :
    halfEven s.num.natAbs s.den ≤ k := by
  have hnear := (abs_le.mp (abs_halfEven_sub_le hs)).2
  have hlt : (halfEven s.num.natAbs s.den : ℚ) < (k + 1 : ℕ) := by
    push_cast
    linarith
  exact Nat.lt_succ_iff.mp (by exact_mod_cast hlt)

/-- The nearest whole number does not get smaller: two that differ are both nearest at a half
between them only. -/
theorem halfEven_mono {s t : ℚ} (hs : 0 ≤ s) (hst : s ≤ t) :
    halfEven s.num.natAbs s.den ≤ halfEven t.num.natAbs t.den := by
  have hlow := (abs_le.mp (abs_halfEven_sub_le hs)).2
  have hhigh := (abs_le.mp (abs_halfEven_sub_le (hs.trans hst))).1
  by_contra hlt
  have hgap : (halfEven t.num.natAbs t.den : ℚ) + 1 ≤ halfEven s.num.natAbs s.den := by
    exact_mod_cast not_le.mp hlt
  have heq : s = t := by linarith
  exact hlt (le_of_eq (by rw [heq]))

end Nearest

section Places

variable {k : ℕ} {q : ℚ}

theorem toPlaces_eq (hq : 0 ≤ q) : toPlaces k q =
    halfEven (q * 10 ^ k).num.natAbs (q * 10 ^ k).den / 10 ^ k := by
  have hpow : pow10 (-(k : ℤ)) = (10 ^ k)⁻¹ := by rw [pow10_eq, zpow_neg, zpow_natCast]
  simp only [toPlaces, magnitude, if_neg (not_lt.mpr hq), hpow, pow10_eq, zpow_natCast]
  rfl

/-- A rational to some places is at most a half of the last place away. -/
theorem abs_toPlaces_sub_le (hq : 0 ≤ q) : |toPlaces k q - q| ≤ 1 / (2 * 10 ^ k) := by
  have hpow : (0 : ℚ) < 10 ^ k := by positivity
  have hnear := abs_halfEven_sub_le (mul_nonneg hq hpow.le)
  rw [toPlaces_eq hq]
  generalize (halfEven (q * 10 ^ k).num.natAbs (q * 10 ^ k).den : ℚ) = m at hnear
  rw [show m / 10 ^ k - q = (m - q * 10 ^ k) / 10 ^ k by field_simp, abs_div, abs_of_pos hpow,
    div_le_div_iff₀ hpow (by positivity)]
  nlinarith

theorem toPlaces_nonneg (hq : 0 ≤ q) : 0 ≤ toPlaces k q := by
  rw [toPlaces_eq hq]
  positivity

/-- A rational to some places passes no whole bound. -/
theorem toPlaces_le (hq : 0 ≤ q) {n : ℕ} (h : q ≤ n) : toPlaces k q ≤ n := by
  have hpow : (0 : ℚ) < 10 ^ k := by positivity
  have hle : q * 10 ^ k ≤ (n * 10 ^ k : ℕ) := by
    push_cast
    gcongr
  rw [toPlaces_eq hq, div_le_iff₀ hpow]
  exact_mod_cast halfEven_le_of_le (mul_nonneg hq hpow.le) hle

theorem toPlaces_mono {r : ℚ} (hq : 0 ≤ q) (h : q ≤ r) : toPlaces k q ≤ toPlaces k r := by
  have hpow : (0 : ℚ) < 10 ^ k := by positivity
  have hround := halfEven_mono (mul_nonneg hq hpow.le) (mul_le_mul_of_nonneg_right h hpow.le)
  rw [toPlaces_eq hq, toPlaces_eq (hq.trans h)]
  exact div_le_div_of_nonneg_right (by exact_mod_cast hround) hpow.le

end Places

section Magnitudes

variable {q : ℚ}

/-- A rounded magnitude is at most its last place away. -/
theorem abs_roundMagnitude_sub_le (hq : 0 ≤ q) : |roundMagnitude q - q| ≤ 2 ^ lastPlace q := by
  have hu : (0 : ℚ) < 2 ^ lastPlace q := by positivity
  have hnear := abs_halfEven_sub_le (div_nonneg hq hu.le)
  rw [roundMagnitude_eq]
  generalize (halfEven (q / 2 ^ lastPlace q).num.natAbs (q / 2 ^ lastPlace q).den : ℚ) = m at hnear
  calc |m * 2 ^ lastPlace q - q| = |(m - q / 2 ^ lastPlace q) * 2 ^ lastPlace q| := by
        congr 1
        field_simp
    _ = |m - q / 2 ^ lastPlace q| * 2 ^ lastPlace q := by rw [abs_mul, abs_of_pos hu]
    _ ≤ 1 * 2 ^ lastPlace q := by gcongr; linarith
    _ = 2 ^ lastPlace q := one_mul _

theorem lastPlace_le {e : ℤ} (hq : 0 < q) (h : q < 2 ^ e) (he : -1021 ≤ e) :
    lastPlace q ≤ e - 53 := by
  have hexp : binaryExponent q < e :=
    (zpow_lt_zpow_iff_right₀ (by norm_num)).mp ((pow2_binaryExponent_le hq).trans_lt h)
  rw [lastPlace_eq]
  omega

/-- A rounded magnitude passes no whole bound, unless its last place is above the point. -/
theorem roundMagnitude_le (hq : 0 ≤ q) (hlast : lastPlace q ≤ 0) {n : ℕ} (h : q ≤ n) :
    roundMagnitude q ≤ n := by
  obtain ⟨j, hj⟩ := Int.eq_ofNat_of_zero_le (show 0 ≤ -lastPlace q by omega)
  have hu : (2 : ℚ) ^ lastPlace q = (2 ^ j)⁻¹ := by
    rw [show lastPlace q = -(j : ℤ) by omega, zpow_neg, zpow_natCast]
  have hpow : (0 : ℚ) < 2 ^ j := by positivity
  have hle : q / 2 ^ lastPlace q ≤ (n * 2 ^ j : ℕ) := by
    rw [hu, div_inv_eq_mul]
    push_cast
    gcongr
  have hround := halfEven_le_of_le (div_nonneg hq (by positivity)) hle
  rw [roundMagnitude_eq]
  generalize halfEven (q / 2 ^ lastPlace q).num.natAbs (q / 2 ^ lastPlace q).den = m at hround
  rw [hu, ← div_eq_mul_inv, div_le_iff₀ hpow]
  exact_mod_cast hround

/-- One more than the largest whole number below which all are doubles is lost to rounding. -/
theorem roundMagnitude_le_top (hq : 0 < q) (h : q ≤ 2 ^ 53 + 1) : roundMagnitude q ≤ 2 ^ 53 := by
  rcases lt_or_ge q (2 ^ 53) with hlt | hge
  · have hlast := lastPlace_le hq (e := 53) (by exact_mod_cast hlt) (by norm_num)
    have hle := roundMagnitude_le hq.le hlast (n := 2 ^ 53) (by push_cast; exact hlt.le)
    exact_mod_cast hle
  · have hexp : binaryExponent q = 53 := by
      have hlow : binaryExponent q < 54 := by
        refine (zpow_lt_zpow_iff_right₀ (show (1 : ℚ) < 2 by norm_num)).mp
          ((pow2_binaryExponent_le hq).trans_lt ?_)
        calc q ≤ 2 ^ 53 + 1 := h
          _ < 2 ^ (54 : ℤ) := by norm_num
      have hhigh : 53 < binaryExponent q + 1 := by
        refine (zpow_lt_zpow_iff_right₀ (show (1 : ℚ) < 2 by norm_num)).mp
          (lt_of_le_of_lt ?_ (lt_two_zpow_binaryExponent hq))
        exact_mod_cast hge
      omega
    have hlast : lastPlace q = 1 := by
      rw [lastPlace_eq]
      omega
    have hs : 0 ≤ q / 2 := by positivity
    have hd : (0 : ℚ) < (q / 2).den := by exact_mod_cast Rat.den_pos _
    have heven : halfEven (q / 2).num.natAbs (q / 2).den ≤ 2 ^ 52 := by
      refine halfEven_le_of_even (Rat.den_pos _) (by norm_num) ?_
      have hle : 2 * ((q / 2).num.natAbs : ℚ) ≤ (q / 2).den * (2 * 2 ^ 52 + 1) := by
        rw [← mul_den_eq_natAbs hs]
        nlinarith
      exact_mod_cast hle
    have heven : (halfEven (q / 2).num.natAbs (q / 2).den : ℚ) ≤ 2 ^ 52 := by exact_mod_cast heven
    rw [roundMagnitude_eq, hlast, zpow_one]
    linarith

end Magnitudes

end Rounding

namespace Number
open Rounding

variable {q : ℚ}

@[simp] theorem keep_zero : keep 0 = 0 := by
  simp [keep, ofRat, zero, value?]

/-- What is kept of a positive rational is its rounded magnitude, within the range of doubles. -/
theorem keep_of_pos (hq : 0 < q) :
    keep q = if pow2 1024 ≤ roundMagnitude q then 0 else roundMagnitude q := by
  have hmagnitude : magnitude q = q := if_neg (not_lt.mpr hq.le)
  simp only [keep, ofRat, if_neg hq.ne', hmagnitude, if_neg (not_lt.mpr hq.le)]
  split <;> rfl

/-- Rounding does not look at the sign. -/
theorem keep_neg_of_pos (hq : 0 < q) : keep (-q) = -keep q := by
  have hneg : -q < 0 := neg_neg_of_pos hq
  have hmagnitude : magnitude (-q) = q := by rw [magnitude, if_pos hneg, neg_neg]
  rw [keep_of_pos hq]
  simp only [keep, ofRat, if_neg hneg.ne, hmagnitude, if_pos hneg]
  split_ifs with htop hzero
  · exact neg_zero.symm
  · rw [hzero]
    exact neg_zero.symm
  · rfl

theorem keep_nonneg (hq : 0 ≤ q) : 0 ≤ keep q := by
  rcases hq.eq_or_lt with rfl | hq
  · rw [keep_zero]
  · rw [keep_of_pos hq]
    split
    · exact le_rfl
    · exact roundMagnitude_nonneg q

theorem keep_le_of_roundMagnitude (hq : 0 < q) {r : ℚ} (hr : 0 ≤ r)
    (h : roundMagnitude q ≤ r) : keep q ≤ r := by
  rw [keep_of_pos hq]
  split
  · exact hr
  · exact h

/-- What is kept passes no whole bound below which all whole numbers are doubles. -/
theorem keep_le {n : ℕ} (hn : n ≤ 2 ^ 53) (h : q ≤ n) : keep q ≤ n := by
  rcases lt_trichotomy q 0 with hq | rfl | hq
  · have hneg := keep_neg_of_pos (neg_pos.mpr hq)
    rw [neg_neg] at hneg
    rw [hneg]
    exact (neg_nonpos.mpr (keep_nonneg (neg_pos.mpr hq).le)).trans (Nat.cast_nonneg n)
  · rwa [keep_zero]
  · refine keep_le_of_roundMagnitude hq n.cast_nonneg ?_
    rcases lt_or_ge q (2 ^ 53) with hlt | hge
    · have hlast := lastPlace_le hq (e := 53) (by exact_mod_cast hlt) (by norm_num)
      exact roundMagnitude_le hq.le hlast h
    · have hn : (n : ℚ) ≤ 2 ^ 53 := by exact_mod_cast hn
      exact (roundMagnitude_le_top hq (by linarith)).trans (hge.trans h)

/-- The doubles around a thousand and below are close to each other. -/
theorem abs_keep_sub_le (h : |q| ≤ 1024) : |keep q - q| ≤ 1 / 10 ^ 9 := by
  have hpos : ∀ r : ℚ, 0 < r → r ≤ 1024 → |keep r - r| ≤ 1 / 10 ^ 9 := by
    intro r hr hle
    have hlast := lastPlace_le (e := 11) hr (hle.trans_lt (by norm_num)) (by norm_num)
    have hbound : roundMagnitude r ≤ (1024 : ℕ) :=
      roundMagnitude_le hr.le (by omega) (by exact_mod_cast hle)
    have hrange : ¬ pow2 1024 ≤ roundMagnitude r := by
      refine not_le.mpr (hbound.trans_lt ?_)
      rw [pow2_eq]
      calc ((1024 : ℕ) : ℚ) < 2 ^ (11 : ℤ) := by norm_num
        _ ≤ 2 ^ (1024 : ℤ) := zpow_le_zpow_right₀ (by norm_num) (by norm_num)
    rw [keep_of_pos hr, if_neg hrange]
    calc |roundMagnitude r - r| ≤ 2 ^ lastPlace r := abs_roundMagnitude_sub_le hr.le
      _ ≤ 2 ^ (11 - 53 : ℤ) := zpow_le_zpow_right₀ (by norm_num) hlast
      _ ≤ 1 / 10 ^ 9 := by norm_num
  rcases lt_trichotomy q 0 with hq | rfl | hq
  · have hneg := hpos (-q) (neg_pos.mpr hq) (by rwa [abs_of_neg hq] at h)
    have hkeep := keep_neg_of_pos (neg_pos.mpr hq)
    rw [neg_neg] at hkeep
    rwa [hkeep, show -keep (-q) - q = -(keep (-q) - -q) by ring, abs_neg]
  · norm_num
  · exact hpos q hq (by rwa [abs_of_pos hq] at h)

end Number

section Arithmetic
open Rounding

variable {round : ℚ → ℚ}

/-- What scores need of a rounding. -/
structure IsArithmetic (round : ℚ → ℚ) : Prop where
  nonneg : ∀ q, 0 ≤ q → 0 ≤ round q
  le : ∀ (q : ℚ) (n : ℕ), n ≤ 100 → q ≤ n → round q ≤ n
  near : ∀ q, |q| ≤ 1024 → |round q - q| ≤ 1 / 10 ^ 9
  total_le : ∀ xs : List ℚ, (∀ x ∈ xs, 0 ≤ x ∧ x ≤ 1) → Weights.total round xs ≤ xs.length

theorem total_append (round : ℚ → ℚ) (xs : List ℚ) (x : ℚ) :
    Weights.total round (xs ++ [x]) = round (Weights.total round xs + x) := by
  simp [Weights.total]

/-- A sum of numbers that are not below zero is not below zero. -/
theorem total_nonneg (hround : ∀ q, 0 ≤ q → 0 ≤ round q) {xs : List ℚ} (hxs : ∀ x ∈ xs, 0 ≤ x) :
    0 ≤ Weights.total round xs := by
  induction xs using List.reverseRecOn with
  | nil => exact le_rfl
  | append_singleton xs x ih =>
      rw [total_append]
      refine hround _ (add_nonneg (ih fun y hy => hxs y ?_) (hxs x ?_))
      · exact List.mem_append_left _ hy
      · simp

theorem total_id (xs : List ℚ) : Weights.total id xs = xs.sum := by
  induction xs using List.reverseRecOn with
  | nil => rfl
  | append_singleton xs x ih => rw [total_append, ih, List.sum_append, List.sum_singleton, id]

/-- The error of a sum is that of its steps. -/
theorem IsArithmetic.abs_total_sub_le (h : IsArithmetic round) {xs : List ℚ}
    (hxs : ∀ x ∈ xs, 0 ≤ x) (hsum : xs.sum + xs.length ≤ 1024) :
    |Weights.total round xs - xs.sum| ≤ xs.length * (1 / 10 ^ 9) := by
  induction xs using List.reverseRecOn with
  | nil => simp [Weights.total]
  | append_singleton xs x ih =>
      have hx := hxs x (by simp)
      have hbefore : ∀ y ∈ xs, 0 ≤ y := fun y hy => hxs y (List.mem_append_left _ hy)
      rw [List.sum_append, List.length_append, List.sum_singleton, List.length_singleton] at hsum ⊢
      push_cast at hsum ⊢
      have hprevious := ih hbefore (by linarith)
      have hnonneg := total_nonneg h.nonneg hbefore
      have hlength : (0 : ℚ) ≤ xs.length := Nat.cast_nonneg _
      rw [total_append]
      generalize Weights.total round xs = acc at hprevious hnonneg
      obtain ⟨hlow, hhigh⟩ := abs_le.mp hprevious
      have hstep := h.near (acc + x) (by rw [abs_of_nonneg (by linarith)]; linarith)
      calc |round (acc + x) - (xs.sum + x)|
          = |(round (acc + x) - (acc + x)) + (acc - xs.sum)| := by congr 1; ring
        _ ≤ |round (acc + x) - (acc + x)| + |acc - xs.sum| := abs_add_le _ _
        _ ≤ (xs.length + 1) * (1 / 10 ^ 9) := by linarith

/-- Exact arithmetic. -/
theorem isArithmetic_id : IsArithmetic id where
  nonneg _ hq := hq
  le _ _ _ h := h
  near q _ := by norm_num
  total_le xs hxs := by
    rw [total_id]
    simpa using List.sum_le_card_nsmul xs 1 fun x hx => (hxs x hx).2

/-- In double precision a sum of numbers between zero and one passes neither their count nor the
largest whole number below which all are doubles. -/
theorem total_keep_le {xs : List ℚ} (hxs : ∀ x ∈ xs, 0 ≤ x ∧ x ≤ 1) :
    Weights.total Number.keep xs ≤ xs.length ∧ Weights.total Number.keep xs ≤ 2 ^ 53 := by
  induction xs using List.reverseRecOn with
  | nil => simp [Weights.total]
  | append_singleton xs x ih =>
      have hx := hxs x (by simp)
      have hbefore : ∀ y ∈ xs, 0 ≤ y ∧ y ≤ 1 := fun y hy => hxs y (List.mem_append_left _ hy)
      obtain ⟨hcount, htop⟩ := ih hbefore
      have hnonneg := total_nonneg (fun _ => Number.keep_nonneg) fun y hy => (hbefore y hy).1
      rw [total_append, List.length_append, List.length_singleton]
      generalize Weights.total Number.keep xs = acc at hcount htop hnonneg
      rcases (add_nonneg hnonneg hx.1).eq_or_lt with hzero | hpos
      · rw [← hzero, Number.keep_zero]
        exact ⟨Nat.cast_nonneg _, by norm_num⟩
      have hstop : Number.keep (acc + x) ≤ 2 ^ 53 :=
        Number.keep_le_of_roundMagnitude hpos (by norm_num)
          (roundMagnitude_le_top hpos (add_le_add htop hx.2))
      refine ⟨?_, hstop⟩
      rcases Nat.le_or_le (xs.length + 1) (2 ^ 53) with hfew | hmany
      · exact Number.keep_le hfew (by push_cast; exact add_le_add hcount hx.2)
      · exact hstop.trans (by exact_mod_cast hmany)

/-- Double precision. -/
theorem isArithmetic_keep : IsArithmetic Number.keep where
  nonneg _ := Number.keep_nonneg
  le _ _ hn h := Number.keep_le (hn.trans (by norm_num)) h
  near _ := Number.abs_keep_sub_le
  total_le _ hxs := (total_keep_le hxs).1

end Arithmetic

end Eligibility
