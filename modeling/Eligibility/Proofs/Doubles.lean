import Mathlib.Data.Rat.Floor
import Mathlib.Tactic
import Eligibility.Number.Reading
/-!
# Doubles and the decimals that read back as them

**Doubles.**  A number is a double when rounding leaves it as it is.  Rounding keeps at
least half of what is not below one, and what lies far enough below the finest place
vanishes; so a decimal that rounds to a double has an exponent within the bounds of
the reader.  Rounding twice is rounding once: a rounded magnitude has at most 53 binary
digits, or is the next power of two.

**Decimals.**  The decimal chosen for a double rounds to it: the search stops only at
such a decimal, and what is written out in full is the double itself, which has a
power of two below the line.

**Results.**
* `lt_two_mul_roundMagnitude`, `roundMagnitude_eq_zero`: how far rounding goes.
* `roundMagnitude_idem`, `Number.isDouble_ofRat`: what is rounded is a double.
* `ofDecimal_of_roundMagnitude`: a decimal that rounds to a double is read as it.
* `roundMagnitude_shortest`: the decimal chosen for a double rounds to it.
-/

namespace Eligibility
namespace Rounding

section Powers

theorem mkRat_one_pow {b : Nat} {e : Int} (h : ¬ 0 ≤ e) :
    mkRat 1 (Nat.pow b (-e).toNat) = (b : ℚ) ^ e := by
  obtain ⟨n, hn⟩ := Int.eq_ofNat_of_zero_le (show 0 ≤ -e by omega)
  have he : e = -(n : ℤ) := by omega
  subst he
  simp [Rat.mkRat_eq_div]

theorem pow2_eq (e : Int) : pow2 e = (2 : ℚ) ^ e := by
  unfold pow2
  split
  · next h =>
    obtain ⟨n, rfl⟩ := Int.eq_ofNat_of_zero_le h
    simp
  · next h => exact_mod_cast mkRat_one_pow h

theorem pow10_eq (e : Int) : pow10 e = (10 : ℚ) ^ e := by
  unfold pow10
  split
  · next h =>
    obtain ⟨n, rfl⟩ := Int.eq_ofNat_of_zero_le h
    simp
  · next h => exact_mod_cast mkRat_one_pow h

/-- A power of ten beyond the range of doubles, either way. -/
theorem two_zpow_le_ten_zpow : (2 : ℚ) ^ (1075 : ℤ) ≤ 10 ^ (400 : ℤ) := by
  calc (2 : ℚ) ^ (1075 : ℤ) ≤ 2 ^ (3 * 400 : ℤ) := zpow_le_zpow_right₀ (by norm_num) (by norm_num)
    _ = (2 ^ (3 : ℤ)) ^ (400 : ℤ) := zpow_mul _ _ _
    _ ≤ 10 ^ (400 : ℤ) := zpow_le_zpow_left₀ (by norm_num) (by norm_num) (by norm_num)

end Powers

section Magnitudes

theorem halfEven_eq_zero {n d : Nat} (h : 2 * n < d) : halfEven n d = 0 := by
  have hn : n % d = n := Nat.mod_eq_of_lt (by omega)
  simp [halfEven, hn, h, Nat.div_eq_of_lt (show n < d by omega)]

theorem div_le_halfEven (n d : Nat) : n / d ≤ halfEven n d := by
  unfold halfEven
  split <;> omega

theorem eq_natAbs_div {s : ℚ} (hs : 0 ≤ s) : s = (s.num.natAbs : ℚ) / s.den := by
  have hn : ((s.num.natAbs : ℤ)) = s.num := Int.natAbs_of_nonneg (Rat.num_nonneg.mpr hs)
  calc s = (s.num : ℚ) / s.den := (Rat.num_div_den s).symm
    _ = (s.num.natAbs : ℚ) / s.den := by rw [← hn]; simp

theorem lt_halfEven_add_one {s : ℚ} (hs : 0 ≤ s) : s < halfEven s.num.natAbs s.den + 1 := by
  have hd : (0 : ℚ) < s.den := by exact_mod_cast s.den_pos
  have hlt : s.num.natAbs < s.den * (s.num.natAbs / s.den + 1) :=
    Nat.lt_mul_div_succ _ s.den_pos
  have hle := div_le_halfEven s.num.natAbs s.den
  have hlt : s.num.natAbs < s.den * (halfEven s.num.natAbs s.den + 1) :=
    hlt.trans_le (Nat.mul_le_mul_left _ (by omega))
  calc s = (s.num.natAbs : ℚ) / s.den := eq_natAbs_div hs
    _ < halfEven s.num.natAbs s.den + 1 := by
        rw [div_lt_iff₀ hd, mul_comm]
        exact_mod_cast hlt

theorem two_pow_log2_div_le {n d : Nat} (hn : n ≠ 0) (hd : d ≠ 0) :
    (2 : ℚ) ^ ((n.log2 : ℤ) - d.log2 - 1) ≤ (n : ℚ) / d := by
  have hpos : (0 : ℚ) < d := by exact_mod_cast Nat.pos_of_ne_zero hd
  have hlow : (2 : ℚ) ^ n.log2 ≤ n := by exact_mod_cast Nat.log2_self_le hn
  have hhigh : (d : ℚ) ≤ 2 ^ (d.log2 + 1) := by exact_mod_cast Nat.lt_log2_self.le
  rw [le_div_iff₀ hpos]
  calc (2 : ℚ) ^ ((n.log2 : ℤ) - d.log2 - 1) * d
      ≤ (2 : ℚ) ^ ((n.log2 : ℤ) - d.log2 - 1) * 2 ^ (d.log2 + 1) := by gcongr
    _ = (2 : ℚ) ^ n.log2 := by
        rw [← zpow_natCast, ← zpow_natCast, ← zpow_add₀ (by norm_num)]
        congr 1
        push_cast
        ring
    _ ≤ n := hlow

/-- The exponent of a positive rational is not too large. -/
theorem pow2_binaryExponent_le {q : ℚ} (hq : 0 < q) : (2 : ℚ) ^ binaryExponent q ≤ q := by
  simp only [binaryExponent, pow2_eq]
  split
  · next h => exact h
  · conv_rhs => rw [eq_natAbs_div hq.le]
    exact two_pow_log2_div_le (by simpa using hq.ne') q.den_ne_zero

theorem lastPlace_eq (q : ℚ) : lastPlace q = max (binaryExponent q - 52) (-1074) := by
  simp only [lastPlace]
  split <;> omega

theorem roundMagnitude_eq (q : ℚ) :
    roundMagnitude q = halfEven (q / 2 ^ lastPlace q).num.natAbs (q / 2 ^ lastPlace q).den *
      2 ^ lastPlace q := by
  simp only [roundMagnitude, pow2_eq]

theorem lt_roundMagnitude_add {q : ℚ} (hq : 0 ≤ q) : q < roundMagnitude q + 2 ^ lastPlace q := by
  have hu : (0 : ℚ) < 2 ^ lastPlace q := by positivity
  have h := lt_halfEven_add_one (div_nonneg hq hu.le)
  rw [div_lt_iff₀ hu] at h
  rw [roundMagnitude_eq]
  linarith

/-- The last place of a rational that is not below one is at most half of it. -/
theorem two_mul_lastPlace_le {q : ℚ} (hq : 1 ≤ q) : 2 * (2 : ℚ) ^ lastPlace q ≤ q := by
  have hb : (2 : ℚ) ^ binaryExponent q ≤ q := pow2_binaryExponent_le (by linarith)
  rw [lastPlace_eq, ← zpow_one_add₀ (by norm_num)]
  rcases max_choice (binaryExponent q - 52) (-1074) with h | h
  · calc (2 : ℚ) ^ (1 + max (binaryExponent q - 52) (-1074))
        ≤ 2 ^ binaryExponent q := zpow_le_zpow_right₀ (by norm_num) (by omega)
      _ ≤ q := hb
  · rw [h]
    exact le_trans (zpow_le_one_of_nonpos₀ (by norm_num) (by norm_num)) hq

/-- Rounding keeps more than half of a rational that is not below one. -/
theorem lt_two_mul_roundMagnitude {q : ℚ} (hq : 1 ≤ q) : q < 2 * roundMagnitude q := by
  have hlast := two_mul_lastPlace_le hq
  have := lt_roundMagnitude_add (show (0 : ℚ) ≤ q by linarith)
  linarith

/-- What lies below half of the finest place vanishes. -/
theorem roundMagnitude_eq_zero {q : ℚ} (hq : 0 < q) (h : q < 2 ^ (-1075 : ℤ)) :
    roundMagnitude q = 0 := by
  have he : binaryExponent q < -1075 :=
    (zpow_lt_zpow_iff_right₀ (by norm_num)).mp ((pow2_binaryExponent_le hq).trans_lt h)
  have hlast : lastPlace q = -1074 := by
    rw [lastPlace_eq]
    omega
  have hs : 0 < q / 2 ^ (-1074 : ℤ) := by positivity
  have hlt : 2 * (q / 2 ^ (-1074 : ℤ)) < 1 := by
    rw [mul_div_assoc', div_lt_one (by positivity)]
    calc 2 * q < 2 * 2 ^ (-1075 : ℤ) := by linarith
      _ = 2 ^ (-1074 : ℤ) := by rw [← zpow_one_add₀ (by norm_num)]; norm_num
  rw [roundMagnitude_eq, hlast, halfEven_eq_zero, Nat.cast_zero, zero_mul]
  rw [eq_natAbs_div hs.le, mul_div_assoc', div_lt_one (by exact_mod_cast Rat.den_pos _)] at hlt
  exact_mod_cast hlt

theorem roundMagnitude_zero : roundMagnitude 0 = 0 := by
  simp [roundMagnitude_eq, halfEven_eq_zero]

theorem roundMagnitude_nonneg (q : ℚ) : 0 ≤ roundMagnitude q := by
  rw [roundMagnitude_eq]
  positivity

end Magnitudes

section Twice

theorem halfEven_le {n d k : Nat} (h : n < d * k) : halfEven n d ≤ k := by
  have hdiv : n / d < k := Nat.div_lt_of_lt_mul h
  unfold halfEven
  split <;> omega

theorem lt_two_pow_log2_div {n d : Nat} (hd : d ≠ 0) :
    (n : ℚ) / d < 2 ^ ((n.log2 : ℤ) - d.log2 + 1) := by
  have hpos : (0 : ℚ) < d := by exact_mod_cast Nat.pos_of_ne_zero hd
  have hlow : (2 : ℚ) ^ d.log2 ≤ d := by exact_mod_cast Nat.log2_self_le hd
  have hhigh : (n : ℚ) < 2 ^ (n.log2 + 1) := by exact_mod_cast Nat.lt_log2_self
  rw [div_lt_iff₀ hpos]
  calc (n : ℚ) < 2 ^ (n.log2 + 1) := hhigh
    _ = 2 ^ ((n.log2 : ℤ) - d.log2 + 1) * 2 ^ d.log2 := by
        rw [← zpow_natCast, ← zpow_natCast, ← zpow_add₀ (by norm_num)]
        congr 1
        push_cast
        ring
    _ ≤ 2 ^ ((n.log2 : ℤ) - d.log2 + 1) * d := by gcongr

/-- The exponent of a positive rational is not too small. -/
theorem lt_two_zpow_binaryExponent {q : ℚ} (hq : 0 < q) : q < 2 ^ (binaryExponent q + 1) := by
  simp only [binaryExponent, pow2_eq]
  split
  · conv_lhs => rw [eq_natAbs_div hq.le]
    exact lt_two_pow_log2_div q.den_ne_zero
  · next h =>
    rw [sub_add_cancel]
    exact not_le.mp h

/-- A whole multiple of its last place stays as it is. -/
theorem roundMagnitude_eq_self {q : ℚ} {n : ℕ} (h : q = n * 2 ^ lastPlace q) :
    roundMagnitude q = q := by
  have hu : (2 : ℚ) ^ lastPlace q ≠ 0 := by positivity
  have hdiv : q / 2 ^ lastPlace q = n := (div_eq_iff hu).mpr h
  have hround : halfEven n 1 = n := by simp [halfEven, Nat.mod_one]
  rw [roundMagnitude_eq, hdiv, Rat.num_natCast, Rat.den_natCast, Int.natAbs_natCast, hround, ← h]

/-- A number of at most 53 binary digits behind the finest place stays as it is. -/
theorem roundMagnitude_of_lt {m : ℕ} {e : ℤ} (hm : m < 2 ^ 53) (he : -1074 ≤ e) :
    roundMagnitude (m * 2 ^ e) = m * 2 ^ e := by
  rcases Nat.eq_zero_or_pos m with rfl | hpos
  · rw [Nat.cast_zero, zero_mul, roundMagnitude_zero]
  · have hq : (0 : ℚ) < m * 2 ^ e := by positivity
    have hlt : (m : ℚ) * 2 ^ e < 2 ^ (53 + e) := by
      rw [zpow_add₀ (by norm_num)]
      gcongr
      exact_mod_cast hm
    have hexp : binaryExponent (m * 2 ^ e : ℚ) < 53 + e :=
      (zpow_lt_zpow_iff_right₀ (by norm_num)).mp ((pow2_binaryExponent_le hq).trans_lt hlt)
    have hlast : lastPlace (m * 2 ^ e : ℚ) ≤ e := by
      rw [lastPlace_eq]
      omega
    obtain ⟨k, hk⟩ := Int.le.dest hlast
    refine roundMagnitude_eq_self (n := m * 2 ^ k) ?_
    conv_lhs => rw [← hk, zpow_add₀ (by norm_num), zpow_natCast]
    push_cast
    ring

/-- Rounding twice is rounding once. -/
theorem roundMagnitude_idem {q : ℚ} (hq : 0 ≤ q) :
    roundMagnitude (roundMagnitude q) = roundMagnitude q := by
  rcases hq.eq_or_lt with rfl | hq
  · rw [roundMagnitude_zero, roundMagnitude_zero]
  have hlast : -1074 ≤ lastPlace q := by
    rw [lastPlace_eq]
    omega
  have hs : q / 2 ^ lastPlace q < 2 ^ 53 := by
    rw [div_lt_iff₀ (by positivity)]
    calc q < 2 ^ (binaryExponent q + 1) := lt_two_zpow_binaryExponent hq
      _ ≤ 2 ^ (53 + lastPlace q) := zpow_le_zpow_right₀ (by norm_num) (by rw [lastPlace_eq]; omega)
      _ = 2 ^ 53 * 2 ^ lastPlace q := by rw [zpow_add₀ (by norm_num)]; rfl
  rw [roundMagnitude_eq q]
  generalize hsdef : q / 2 ^ lastPlace q = s at hs
  have hs0 : 0 ≤ s := hsdef ▸ by positivity
  have hle : halfEven s.num.natAbs s.den ≤ 2 ^ 53 := by
    refine halfEven_le ?_
    have hd : (0 : ℚ) < s.den := by exact_mod_cast s.den_pos
    rw [eq_natAbs_div hs0, div_lt_iff₀ hd, mul_comm] at hs
    exact_mod_cast hs
  generalize halfEven s.num.natAbs s.den = m at hle
  -- rounding up may reach the next power of two, which has one digit at the next place
  rcases hle.lt_or_eq with hlt | rfl
  · exact roundMagnitude_of_lt hlt hlast
  · have htop : ((2 ^ 53 : ℕ) : ℚ) * 2 ^ lastPlace q = (2 ^ 52 : ℕ) * 2 ^ (1 + lastPlace q) := by
      rw [zpow_one_add₀ (by norm_num)]
      push_cast
      ring
    rw [htop]
    exact roundMagnitude_of_lt (by norm_num) (by omega)

end Twice

end Rounding

open Rounding

namespace Decimal

theorem value_eq (d : Decimal) : d.value = d.digits * (10 : ℚ) ^ d.exponent := by
  rw [value, pow10_eq]

theorem value_pos {d : Decimal} (h : d.digits ≠ 0) : 0 < d.value := by
  have : (0 : ℚ) < d.digits := by exact_mod_cast Nat.pos_of_ne_zero h
  rw [value_eq]
  positivity

/-- The place before the first digit of a decimal. -/
def reach (d : Decimal) : Int := (digitsOf d.digits).length + d.exponent

theorem value_lt (d : Decimal) : d.value < 10 ^ d.reach := by
  have hlt : d.digits < 10 ^ (digitsOf d.digits).length :=
    (Nat.length_toDigits_le_iff (by decide) Nat.length_toDigits_pos).mp le_rfl
  rw [value_eq, reach, zpow_add₀ (by norm_num), zpow_natCast]
  gcongr
  exact_mod_cast hlt

theorem le_value {d : Decimal} (h : d.digits ≠ 0) : 10 ^ (d.reach - 1) ≤ d.value := by
  have hle : 10 ^ ((digitsOf d.digits).length - 1) ≤ d.digits := by
    by_contra hlt
    rcases Nat.eq_zero_or_pos ((digitsOf d.digits).length - 1) with hl | hl
    · rw [hl] at hlt
      omega
    · have := (Nat.length_toDigits_le_iff (b := 10) (by decide) hl).mpr (not_le.mp hlt)
      simp only [digitsOf] at this hl
      omega
  have hpos : 0 < (digitsOf d.digits).length := Nat.length_toDigits_pos
  have hexp : d.reach - 1 = (((digitsOf d.digits).length - 1 : ℕ) : ℤ) + d.exponent := by
    rw [reach]
    omega
  rw [value_eq, hexp, zpow_add₀ (by norm_num), zpow_natCast]
  gcongr
  exact_mod_cast hle

end Decimal

namespace Number

/-- A number that rounding leaves as it is. -/
def IsDouble : Number → Prop
  | .finite q => ofRat q = .finite q
  | _ => True

instance : DecidablePred IsDouble
  | .finite q => inferInstanceAs (Decidable (ofRat q = .finite q))
  | .negZero => .isTrue trivial
  | .posInf => .isTrue trivial
  | .negInf => .isTrue trivial
  | .nan _ => .isTrue trivial

theorem magnitude_pos {q : ℚ} (hq : q ≠ 0) : 0 < magnitude q := by
  unfold magnitude
  split
  · linarith
  · next h => exact lt_of_le_of_ne (not_lt.mp h) hq.symm

/-- The magnitude of a double that is not zero is in the range of doubles, and rounding leaves it
as it is. -/
theorem of_ofRat {q : ℚ} (hq : q ≠ 0) (h : ofRat q = .finite q) :
    roundMagnitude (magnitude q) = magnitude q ∧ magnitude q < 2 ^ (1024 : ℤ) := by
  unfold ofRat at h
  rw [if_neg hq, pow2_eq] at h
  simp only at h
  split at h
  · split at h <;> cases h
  · next hmax =>
    have hround : roundMagnitude (magnitude q) = magnitude q := by
      split at h
      · next hneg =>
        split at h
        · cases h
        · have : -roundMagnitude (magnitude q) = q := by simpa using h
          rw [magnitude, if_pos hneg] at this ⊢
          linarith
      · next hpos =>
        have : roundMagnitude (magnitude q) = q := by simpa using h
        rw [magnitude, if_neg hpos] at this ⊢
        exact this
    rw [hround] at hmax
    exact ⟨hround, not_le.mp hmax⟩

theorem isDouble_ofRat (q : ℚ) : (ofRat q).IsDouble := by
  rcases eq_or_ne q 0 with rfl | hq
  · decide
  have hidem := roundMagnitude_idem (magnitude_pos hq).le
  have hnonneg := roundMagnitude_nonneg (magnitude q)
  unfold ofRat
  rw [if_neg hq]
  generalize roundMagnitude (magnitude q) = m at hidem hnonneg
  dsimp only
  split
  · split <;> trivial
  · next hmax =>
    split
    · split
      · trivial
      · next hm =>
        have hpos : 0 < m := hnonneg.lt_of_ne' hm
        simp [IsDouble, ofRat, magnitude, hm, hpos, hidem, hmax]
    · rcases hnonneg.eq_or_lt with rfl | hpos
      · decide
      · simp [IsDouble, ofRat, magnitude, hpos.ne', hpos.not_gt, hidem, hmax]

theorem isDouble_ofInt? {n : Int} {x : Number} (h : ofInt? n = some x) : x.IsDouble := by
  have hn := isDouble_ofRat n
  unfold ofInt? at h
  split at h
  · next hq =>
    cases h
    exact hq ▸ hn
  · cases h

theorem isDouble_ofDecimal (b : Bool) (d : Decimal) : (ofDecimal b d).IsDouble := by
  unfold ofDecimal
  dsimp only
  split
  · cases b <;> decide
  · split
    · cases b <;> decide
    · exact isDouble_ofRat _

theorem isDouble_read? {cs : List Char} {x : Number} (h : read? cs = some x) : x.IsDouble := by
  unfold read? at h
  dsimp only at h
  split at h
  · cases h
    exact isDouble_ofDecimal _ _
  · cases h
  · unfold word? at h
    dsimp only at h
    split_ifs at h <;> cases h <;> trivial

/-- A decimal far below the finest place vanishes. -/
theorem roundMagnitude_eq_zero_of_reach {d : Decimal} (hd : d.digits ≠ 0) (h : d.reach ≤ -400) :
    roundMagnitude d.value = 0 := by
  refine roundMagnitude_eq_zero (Decimal.value_pos hd) ?_
  calc d.value < 10 ^ d.reach := d.value_lt
    _ ≤ (10 : ℚ) ^ (-400 : ℤ) := zpow_le_zpow_right₀ (by norm_num) h
    _ ≤ 2 ^ (-1075 : ℤ) := by
        rw [zpow_neg, zpow_neg]
        exact inv_anti₀ (by positivity) two_zpow_le_ten_zpow

/-- A decimal far above the greatest double stays above it. -/
theorem two_zpow_lt_roundMagnitude_of_reach {d : Decimal} (hd : d.digits ≠ 0)
    (h : 400 ≤ d.reach - 1) : 2 ^ (1024 : ℤ) < roundMagnitude d.value := by
  have hlarge : (10 : ℚ) ^ (400 : ℤ) ≤ d.value :=
    calc (10 : ℚ) ^ (400 : ℤ) ≤ 10 ^ (d.reach - 1) := zpow_le_zpow_right₀ (by norm_num) h
      _ ≤ d.value := Decimal.le_value hd
  have hhalf := lt_two_mul_roundMagnitude
    (le_trans (one_le_zpow₀ (by norm_num) (by norm_num)) hlarge)
  have hbound : (2 : ℚ) * 2 ^ (1024 : ℤ) ≤ 10 ^ (400 : ℤ) := by
    rw [← zpow_one_add₀ (by norm_num)]
    exact le_trans (zpow_le_zpow_right₀ (by norm_num) (by norm_num)) two_zpow_le_ten_zpow
  refine lt_of_mul_lt_mul_left ?_ zero_le_two
  exact (hbound.trans hlarge).trans_lt hhalf

/-- A decimal that rounds to a double lies within the range of the reader. -/
theorem reach_of_roundMagnitude {d : Decimal} {q : ℚ} (hq : 0 < q) (hmax : q < 2 ^ (1024 : ℤ))
    (h : roundMagnitude d.value = q) :
    d.digits ≠ 0 ∧ -exponentBound ≤ d.reach ∧ d.reach ≤ exponentBound := by
  have hd : d.digits ≠ 0 := by
    intro hd
    rw [Decimal.value_eq, hd, Nat.cast_zero, zero_mul, roundMagnitude_zero] at h
    exact hq.ne h
  refine ⟨hd, ?_, ?_⟩
  · by_contra hlt
    rw [roundMagnitude_eq_zero_of_reach hd (by simp only [exponentBound] at hlt; omega)] at h
    exact hq.ne h
  · by_contra hlt
    have := two_zpow_lt_roundMagnitude_of_reach hd
      (by simp only [exponentBound] at hlt; omega)
    rw [h] at this
    exact absurd (this.trans hmax) (lt_irrefl _)

/-- A decimal that rounds to the magnitude of a double is read as that double behind its sign. -/
theorem ofDecimal_of_roundMagnitude {d : Decimal} {q : ℚ} (hq : q ≠ 0)
    (hdouble : ofRat q = .finite q) (h : roundMagnitude d.value = magnitude q) :
    ofDecimal (decide (q < 0)) d = .finite q := by
  obtain ⟨-, hmax⟩ := of_ofRat hq hdouble
  have hm := magnitude_pos hq
  obtain ⟨hd, hlow, hhigh⟩ := reach_of_roundMagnitude hm hmax h
  have hpos := Decimal.value_pos hd
  have hmax : ¬ pow2 1024 ≤ magnitude q := by
    rw [pow2_eq]
    exact not_le.mpr hmax
  have hlow : ¬ ((Decimal.digitsOf d.digits).length : ℤ) + d.exponent < -exponentBound :=
    not_lt.mpr hlow
  have hhigh : ¬ exponentBound < ((Decimal.digitsOf d.digits).length : ℤ) + d.exponent :=
    not_lt.mpr hhigh
  by_cases hneg : q < 0
  · have hmag : magnitude (-d.value) = d.value := by simp [magnitude, hpos]
    have hback : -magnitude q = q := by simp [magnitude, hneg]
    simp [ofDecimal, hd, hlow, hhigh, ofRat, hpos.ne', hpos, hmag, h, hmax, hm.ne', hneg, hback]
  · have hmag : magnitude d.value = d.value := by simp [magnitude, hpos.le]
    rw [show magnitude q = q by simp [magnitude, hneg]] at h hmax
    simp [ofDecimal, hd, hlow, hhigh, ofRat, hpos.ne', hpos.not_gt, hmag, h, hmax, hneg]

end Number

namespace Decimal

/-- The search stops at a decimal that reads back. -/
theorem roundMagnitude_of_search {q : ℚ} {d : Decimal} :
    ∀ {fuel n : Nat}, search q fuel n = some d → roundMagnitude d.value = q
  | 0, n, h => by cases h
  | fuel + 1, n, h => by
      unfold search at h
      split at h
      · next e he =>
        cases h
        simpa [readsAs] using List.find?_some he
      · exact roundMagnitude_of_search h

/-- What rounding leaves as it is has a power of two below the line. -/
theorem exists_den_eq_two_pow {q : ℚ} (h : roundMagnitude q = q) : ∃ b, q.den = 2 ^ b := by
  rw [roundMagnitude_eq] at h
  generalize halfEven _ _ = m at h
  rcases le_or_gt 0 (lastPlace q) with hl | hl
  · obtain ⟨n, hn⟩ := Int.eq_ofNat_of_zero_le hl
    refine ⟨0, ?_⟩
    have : q = ((m * 2 ^ n : ℕ) : ℚ) := by
      rw [← h, hn]
      push_cast
      rw [zpow_natCast]
    rw [this]
    exact Rat.den_natCast _
  · obtain ⟨n, hn⟩ := Int.eq_ofNat_of_zero_le (show 0 ≤ -lastPlace q by omega)
    have hlast : lastPlace q = -(n : ℤ) := by omega
    have hq : q = Rat.divInt m (2 ^ n : ℕ) := by
      rw [Rat.divInt_eq_div, ← h, hlast, zpow_neg, zpow_natCast]
      push_cast
      rw [div_eq_mul_inv]
    have hdvd : (q.den : ℤ) ∣ (2 ^ n : ℕ) := by
      rw [hq]
      exact Rat.den_dvd _ _
    obtain ⟨b, -, hb⟩ := (Nat.dvd_prime_pow Nat.prime_two).mp (by exact_mod_cast hdvd)
    exact ⟨b, hb⟩

theorem value_exact {q : ℚ} (hq : 0 < q) (h : roundMagnitude q = q) : (exact q).value = q := by
  obtain ⟨b, hb⟩ := exists_den_eq_two_pow h
  have hlog : Nat.log2 q.den = b := by rw [hb, Nat.log2_two_pow]
  rw [value_eq]
  simp only [exact, hlog]
  conv_rhs => rw [eq_natAbs_div hq.le, hb]
  rw [zpow_neg, zpow_natCast, show (10 : ℚ) = 5 * 2 by norm_num, mul_pow,
    show Nat.pow 5 b = 5 ^ b from rfl]
  push_cast
  field_simp

/-- The decimal chosen for a double rounds to it. -/
theorem roundMagnitude_shortest {q : ℚ} (hq : 0 < q) (h : roundMagnitude q = q) :
    roundMagnitude (shortest q).value = q := by
  unfold shortest
  cases hs : search q 17 1 with
  | none => rw [Option.getD_none, value_exact hq h, h]
  | some d => exact roundMagnitude_of_search hs

theorem value_trim (d : Decimal) : d.trim.value = d.value := by
  fun_induction trim d with
  | case1 d h ih =>
      rw [ih, value_eq, value_eq]
      obtain ⟨k, hk⟩ := Nat.dvd_of_mod_eq_zero h.2
      simp only [hk, Nat.mul_div_cancel_left k (show 0 < 10 by decide)]
      rw [zpow_add_one₀ (by norm_num)]
      push_cast
      ring
  | case2 d h => rfl

end Decimal
end Eligibility
