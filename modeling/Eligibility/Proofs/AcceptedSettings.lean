import Eligibility.Proofs.Readings
import Eligibility.Proofs.Roundings
/-!
# What holds of settings that are read

**Weights.**  Each weight lies between zero and one.  They were summed up in double precision, so
that their exact sum is one within twice the tolerance.

**Ceilings.**  The ceilings are at least one.  What is not given has a standard value, which passes
the same checks.

**Results.**
* `Weights.abs_sum_sub_one_le`: the exact sum of weights that were checked.
* `Settings.areSound_of_read`: settings that are read are sound.
-/

namespace Eligibility
open Rounding Schema

theorem Schema.Checked.bind_eq_ok {α β : Type} {x : Checked α} {f : α → Checked β} {b : β} :
    x.bind f = .ok b ↔ ∃ a, x = .ok a ∧ f a = .ok b := by
  cases x <;> simp [Checked.bind]

/-- Whether a number lies between zero and one. -/
def Number.IsFraction (x : Number) : Prop := ∃ q, x.value? = some q ∧ 0 ≤ q ∧ q ≤ 1

theorem Number.isFraction_of_read {j : Json} {x : Number} (h : Weights.fraction j = .ok x) :
    x.IsFraction := by
  unfold Weights.fraction numberWithin at h
  obtain ⟨y, -, h⟩ := Checked.bind_eq_ok.mp h
  split at h
  · cases h
  · next habove =>
    split at h
    · cases h
    · next hbelow =>
      obtain rfl := Checked.ok.inj h
      cases y with
      | finite q =>
          simp only [le_finite, Nat.cast_one, Nat.cast_zero, Bool.not_eq_true',
            decide_eq_false_iff_not, not_not] at habove hbelow
          exact ⟨q, rfl, hbelow, habove⟩
      | negZero => exact ⟨0, rfl, le_rfl, zero_le_one⟩
      | _ => simp [le, lt, same, value?] at habove hbelow

namespace Weights

/-- Whether weights pass the checks of those that are read. -/
structure AreChecked (w : Weights) : Prop where
  fractions : ∀ x ∈ w.toList, x.IsFraction
  sum : w.checkSum = .ok w

variable {w : Weights}

/-- The standard weights pass the checks. -/
theorem areChecked_standard : standard.AreChecked where
  fractions := by
    have hvalues : ∀ x ∈ standard.toList, ∀ q ∈ x.value?, 0 ≤ q ∧ q ≤ 1 := by decide +kernel
    have hnumbers : ∀ x ∈ standard.toList, x.value?.isSome := by decide +kernel
    intro x hx
    obtain ⟨q, hq⟩ := Option.isSome_iff_exists.mp (hnumbers x hx)
    exact ⟨q, hq, hvalues x hx q hq⟩
  sum := by
    unfold checkSum
    rw [if_neg (by decide +kernel)]

/-- A weight that is given or not is a fraction. -/
theorem isFraction_of_optional {k : String} {x y : Number} {fs : List (String × Json)}
    (hx : x ∈ standard.toList) (h : optional k x fraction fs = .ok y) : y.IsFraction := by
  rcases exists_of_optional h with rfl | ⟨j, -, hj⟩
  · exact areChecked_standard.fractions y hx
  · exact Number.isFraction_of_read hj

theorem fractions_of_readFields {fs : List (String × Json)} (h : readFields fs = .ok w) :
    ∀ x ∈ w.toList, x.IsFraction := by
  obtain ⟨_, x₆, h₅, hx₆, rfl⟩ := Checked.ap_eq_ok.mp h
  obtain ⟨_, x₅, h₄, hx₅, rfl⟩ := Checked.ap_eq_ok.mp h₅
  obtain ⟨_, x₄, h₃, hx₄, rfl⟩ := Checked.ap_eq_ok.mp h₄
  obtain ⟨_, x₃, h₂, hx₃, rfl⟩ := Checked.ap_eq_ok.mp h₃
  obtain ⟨_, x₂, h₁, hx₂, rfl⟩ := Checked.ap_eq_ok.mp h₂
  obtain ⟨x₁, hx₁, rfl⟩ := Checked.map_eq_ok.mp h₁
  simp only [toList, List.forall_mem_cons, List.not_mem_nil, false_implies, implies_true, and_true]
  exact ⟨isFraction_of_optional (by simp [toList]) hx₁,
    isFraction_of_optional (by simp [toList]) hx₂, isFraction_of_optional (by simp [toList]) hx₃,
    isFraction_of_optional (by simp [toList]) hx₄, isFraction_of_optional (by simp [toList]) hx₅,
    isFraction_of_optional (by simp [toList]) hx₆⟩

/-- Weights that are read pass the checks. -/
theorem areChecked_of_read {j : Json} (h : read j = .ok w) : w.AreChecked := by
  unfold read record at h
  split at h
  · obtain ⟨v, hv, hsum⟩ := Checked.bind_eq_ok.mp h
    have hsame : v = w := by
      unfold checkSum at hsum
      dsimp only at hsum
      split at hsum
      · cases hsum
      · exact Checked.ok.inj hsum
    subst hsame
    exact ⟨fractions_of_readFields hv, hsum⟩
  · cases h

theorem AreChecked.values (h : w.AreChecked) : ∀ q ∈ w.values, 0 ≤ q ∧ q ≤ 1 := by
  intro q hq
  obtain ⟨x, hx, rfl⟩ := List.mem_map.mp hq
  obtain ⟨r, hr, hunit⟩ := h.fractions x hx
  rwa [hr, Option.getD_some]

theorem length_values (w : Weights) : w.values.length = 6 := rfl

theorem AreChecked.sum_values_le (h : w.AreChecked) : w.values.sum ≤ 6 := by
  have hle := List.sum_le_card_nsmul w.values 1 fun q hq => (h.values q hq).2
  rw [length_values] at hle
  simpa using hle

theorem magnitude_eq_abs (q : ℚ) : magnitude q = |q| := by
  unfold magnitude
  split
  · next h => exact (abs_of_neg h).symm
  · next h => exact (abs_of_nonneg (not_lt.mp h)).symm

/-- The exact sum of weights whose rounded sum was checked. -/
theorem AreChecked.abs_sum_sub_one_le (h : w.AreChecked) :
    |w.values.sum - 1| ≤ 2 / 10 ^ 6 := by
  have hchecked : |Number.keep (total Number.keep w.values - 1)| ≤ tolerance := by
    have hsum := h.sum
    unfold checkSum at hsum
    dsimp only at hsum
    split at hsum
    · cases hsum
    · next hle => rwa [magnitude_eq_abs, not_lt] at hle
  have htolerance : tolerance ≤ 1 / 10 ^ 6 + 1 / 10 ^ 9 := by
    have hexact : (mkRat 1 1000000 : ℚ) = 1 / 10 ^ 6 := by norm_num [Rat.mkRat_eq_div]
    have hnear := Number.abs_keep_sub_le (q := 1 / 10 ^ 6) (by norm_num [abs_le])
    rw [tolerance, hexact]
    linarith [(abs_le.mp hnear).2]
  have hsum := h.sum_values_le
  have hnonneg := List.sum_nonneg fun q hq => (h.values q hq).1
  have hsteps := isArithmetic_keep.abs_total_sub_le
    (fun q (hq : q ∈ w.values) => (h.values q hq).1) (by rw [length_values]; push_cast; linarith)
  rw [length_values] at hsteps
  push_cast at hsteps
  generalize total Number.keep w.values = rounded at hchecked hsteps
  obtain ⟨hlow, hhigh⟩ := abs_le.mp hsteps
  have hnear := Number.abs_keep_sub_le (q := rounded - 1)
    (abs_le.mpr ⟨by linarith, by linarith⟩)
  calc |w.values.sum - 1|
      = |Number.keep (rounded - 1) - (Number.keep (rounded - 1) - (rounded - 1)) -
          (rounded - w.values.sum)| := by congr 1; ring
    _ ≤ |Number.keep (rounded - 1)| + |Number.keep (rounded - 1) - (rounded - 1)| +
          |rounded - w.values.sum| := (abs_sub _ _).trans (by gcongr; exact abs_sub _ _)
    _ ≤ 2 / 10 ^ 6 := by linarith

end Weights

namespace Settings

/-- What holds of settings that are read. -/
structure AreSound (cfg : Settings) : Prop where
  weights : cfg.weights.AreChecked
  nesting : 1 ≤ cfg.nestingCeiling
  conditions : 1 ≤ cfg.conditionCeiling

theorem le_of_integerFrom {low n : Int} {j : Json} (h : integerFrom low j = .ok n) : low ≤ n := by
  obtain ⟨m, -, h⟩ := Checked.bind_eq_ok.mp h
  split at h
  · cases h
  · next hlow => exact Checked.ok.inj h ▸ not_lt.mp hlow

/-- A ceiling that is given or not is at least one. -/
theorem one_le_of_optional {k : String} {m n : Int} {fs : List (String × Json)} (hm : 1 ≤ m)
    (h : optional k m (integerFrom 1) fs = .ok n) : 1 ≤ n := by
  rcases exists_of_optional h with rfl | ⟨j, -, hj⟩
  · exact hm
  · exact le_of_integerFrom hj

theorem areSound_of_readFields {cfg : Settings} {fs : List (String × Json)}
    (h : readFields fs = .ok cfg) : cfg.AreSound := by
  obtain ⟨_, _, h₁₂, -, rfl⟩ := Checked.ap_eq_ok.mp h
  obtain ⟨_, _, h₁₁, -, rfl⟩ := Checked.ap_eq_ok.mp h₁₂
  obtain ⟨_, _, h₁₀, -, rfl⟩ := Checked.ap_eq_ok.mp h₁₁
  obtain ⟨_, _, h₉, hconditions, rfl⟩ := Checked.ap_eq_ok.mp h₁₀
  obtain ⟨_, _, h₈, hnesting, rfl⟩ := Checked.ap_eq_ok.mp h₉
  obtain ⟨_, _, h₇, hweights, rfl⟩ := Checked.ap_eq_ok.mp h₈
  obtain ⟨_, _, h₆, -, rfl⟩ := Checked.ap_eq_ok.mp h₇
  obtain ⟨_, _, h₅, -, rfl⟩ := Checked.ap_eq_ok.mp h₆
  obtain ⟨_, _, h₄, -, rfl⟩ := Checked.ap_eq_ok.mp h₅
  obtain ⟨_, _, h₃, -, rfl⟩ := Checked.ap_eq_ok.mp h₄
  obtain ⟨_, _, h₂, -, rfl⟩ := Checked.ap_eq_ok.mp h₃
  obtain ⟨_, _, h₁, -, rfl⟩ := Checked.ap_eq_ok.mp h₂
  obtain ⟨_, -, rfl⟩ := Checked.map_eq_ok.mp h₁
  refine ⟨?_, one_le_of_optional (by decide) hnesting, one_le_of_optional (by decide) hconditions⟩
  rcases exists_of_optional hweights with rfl | ⟨j, -, hj⟩
  · exact Weights.areChecked_standard
  · exact Weights.areChecked_of_read hj

/-- Settings that are read are sound. -/
theorem areSound_of_read {cfg : Settings} {fs : List (String × Json)} (h : read fs = .ok cfg) :
    cfg.AreSound := by
  obtain ⟨v, hv, hthresholds⟩ := Checked.bind_eq_ok.mp h
  unfold checkThresholds at hthresholds
  split at hthresholds
  · cases hthresholds
  · exact Checked.ok.inj hthresholds ▸ areSound_of_readFields hv

/-- Where nothing is given, the standard settings are read. -/
theorem read_nil : read [] = .ok standard := by
  have hthresholds : ¬ standard.eligibleConfidence.lt standard.conditionalConfidence = true := by
    decide +kernel
  change checkThresholds standard = _
  rw [checkThresholds, if_neg hthresholds]

end Settings
end Eligibility
