import Mathlib.Algebra.Field.Rat
import Mathlib.Algebra.Order.Field.Basic
import Mathlib.Algebra.Order.Ring.Rat
import Mathlib.Data.Prod.Lex
import Mathlib.Order.WithBot
import Eligibility.Interval
/-!
# Intervals as sets of rationals

**Places.**  Apart from what is no number, numbers have their place in the rationals with two
infinities, and the comparisons of numbers are those of their places.

**Intervals.**  An interval whose infinite ends are open is the set of the rationals between
its ends, and the operations on intervals are those on sets.

**Results.**
* `lt_iff`, `same_iff`: comparisons of numbers and of places.
* `mem_intersect`: the points of both of two intervals.
* `isEmpty_eq_false_iff`, `containsPoint_iff`, `isPoint_iff`: whether there are points, and which.
* `contains_iff`: whether all points of another interval are in.
* `not_mem_of_reaches`: an interval shares no points with those behind one that it does not reach.
* `operations_exact`: the operations on intervals against those on sets.
-/

namespace Eligibility

namespace Number

/-- The place of a number among the rationals and the two infinities. -/
def place : Number → WithBot (WithTop Rat)
  | .posInf => ⊤
  | .negZero => (((0 : Rat) : WithTop Rat) : WithBot (WithTop Rat))
  | .finite q => ((q : WithTop Rat) : WithBot (WithTop Rat))
  | _ => ⊥

theorem coe_lt_top (q : Rat) : ((q : WithTop Rat) : WithBot (WithTop Rat)) < ⊤ :=
  WithBot.coe_lt_coe.mpr (WithTop.coe_lt_top q)

@[simp] theorem isNaN_negInf : negInf.isNaN = false := rfl

@[simp] theorem isNaN_posInf : posInf.isNaN = false := rfl

@[simp] theorem place_negInf : negInf.place = ⊥ := rfl

@[simp] theorem place_posInf : posInf.place = ⊤ := rfl

@[simp] theorem place_finite (q : Rat) :
    (finite q).place = ((q : WithTop Rat) : WithBot (WithTop Rat)) := rfl

theorem place_le_place {p q : Rat} : (finite p).place ≤ (finite q).place ↔ p ≤ q := by simp

theorem place_of_value? {x : Number} {q : Rat} (h : x.value? = some q) :
    x.place = ((q : WithTop Rat) : WithBot (WithTop Rat)) := by
  cases x <;> cases h <;> rfl

theorem isNaN_of_value? {x : Number} {q : Rat} (h : x.value? = some q) : x.isNaN = false := by
  cases x with
  | nan => cases h
  | _ => rfl

/-- A place that is not infinite is that of a rational. -/
theorem exists_eq_place {x : WithBot (WithTop Rat)} (hbot : x ≠ ⊥) (htop : x ≠ ⊤) :
    ∃ q : Rat, x = (finite q).place := by
  obtain ⟨y, rfl⟩ := WithBot.ne_bot_iff_exists.mp hbot
  obtain ⟨q, rfl⟩ := WithTop.ne_top_iff_exists.mp fun h => htop (congrArg _ h)
  exact ⟨q, rfl⟩

/-- Between two places there is a rational. -/
theorem exists_place_between {x y : WithBot (WithTop Rat)} (h : x < y) :
    ∃ q : Rat, x < (finite q).place ∧ (finite q).place < y := by
  obtain ⟨z, hxz, hzy⟩ := exists_between h
  obtain ⟨q, rfl⟩ := exists_eq_place (bot_le.trans_lt hxz).ne' (hzy.trans_le le_top).ne
  exact ⟨q, hxz, hzy⟩

/-- Away from what is no number, the order by value is the order of the places. -/
theorem lt_iff {x y : Number} (hx : x.isNaN = false) (hy : y.isNaN = false) :
    x.lt y = true ↔ x.place < y.place := by
  cases x <;> cases y <;>
    simp_all [lt, place, isNaN, value?, coe_lt_top, -WithTop.coe_zero, -WithBot.coe_zero]

/-- Away from what is no number, equality by value is that of the places. -/
theorem same_iff {x y : Number} (hx : x.isNaN = false) (hy : y.isNaN = false) :
    x.same y = true ↔ x.place = y.place := by
  cases x <;> cases y <;>
    simp_all [same, place, isNaN, value?, eq_comm, -WithTop.coe_zero, -WithBot.coe_zero]

theorem same_of_value? {x y : Number} {p q : Rat} (hx : x.value? = some p)
    (hy : y.value? = some q) : x.same y = decide (p = q) := by
  rw [Bool.eq_iff_iff, same_iff (isNaN_of_value? hx) (isNaN_of_value? hy), place_of_value? hx,
    place_of_value? hy]
  simp

end Number

namespace Interval

/-- Whether a rational lies above the lower end. -/
def Above (i : Interval) (q : Rat) : Prop :=
  i.low.place < (Number.finite q).place ∨
    i.low.place = (Number.finite q).place ∧ i.lowClosed = true

/-- Whether a rational lies below the upper end. -/
def Below (i : Interval) (q : Rat) : Prop :=
  (Number.finite q).place < i.high.place ∨
    (Number.finite q).place = i.high.place ∧ i.highClosed = true

/-- Whether a rational lies between the ends. -/
def Mem (i : Interval) (q : Rat) : Prop := i.Above q ∧ i.Below q

/-- Whether the ends are rationals, or infinite and open; nothing asks them to be in order. -/
structure IsProper (i : Interval) : Prop where
  low : i.low.isNaN = false
  high : i.high.isNaN = false
  opensLow : i.low.place = ⊥ ∨ i.low.place = ⊤ → i.lowClosed = false
  opensHigh : i.high.place = ⊥ ∨ i.high.place = ⊤ → i.highClosed = false

variable {i j k : Interval} {p q : Rat}

theorem IsProper.exists_low (hi : i.IsProper) (h : i.lowClosed = true) :
    ∃ q : Rat, i.low.place = (Number.finite q).place :=
  Number.exists_eq_place (fun hbot => by simp [hi.opensLow (.inl hbot)] at h)
    fun htop => by simp [hi.opensLow (.inr htop)] at h

theorem IsProper.exists_high (hi : i.IsProper) (h : i.highClosed = true) :
    ∃ q : Rat, i.high.place = (Number.finite q).place :=
  Number.exists_eq_place (fun hbot => by simp [hi.opensHigh (.inl hbot)] at h)
    fun htop => by simp [hi.opensHigh (.inr htop)] at h

theorem IsProper.intersect (hi : i.IsProper) (hj : j.IsProper) : (i.intersect j).IsProper := by
  unfold Interval.intersect
  simp only [Number.lt_iff hi.low hj.low, Number.lt_iff hj.low hi.low,
    Number.lt_iff hi.high hj.high, Number.lt_iff hj.high hi.high]
  constructor <;> simp only <;> split_ifs <;>
    simp_all [hi.low, hi.high, hj.low, hj.high, hi.opensLow, hj.opensLow, hi.opensHigh,
      hj.opensHigh]

theorem mem_intersect (hi : i.IsProper) (hj : j.IsProper) :
    (i.intersect j).Mem q ↔ i.Mem q ∧ j.Mem q := by
  have hlow : (i.intersect j).Above q ↔ i.Above q ∧ j.Above q := by
    simp only [Above, Interval.intersect, Number.lt_iff hi.low hj.low, Number.lt_iff hj.low hi.low]
    rcases lt_trichotomy i.low.place j.low.place with h | h | h
    · rw [if_neg h.not_gt, if_pos h]
      grind
    · rw [if_neg h.not_gt, if_neg h.not_lt]
      grind
    · rw [if_pos h]
      grind
  have hhigh : (i.intersect j).Below q ↔ i.Below q ∧ j.Below q := by
    simp only [Below, Interval.intersect, Number.lt_iff hi.high hj.high,
      Number.lt_iff hj.high hi.high]
    rcases lt_trichotomy i.high.place j.high.place with h | h | h
    · rw [if_pos h]
      grind
    · rw [if_neg h.not_lt, if_neg h.not_gt]
      grind
    · rw [if_neg h.not_gt, if_pos h]
      grind
  rw [Mem, Mem, Mem, hlow, hhigh]
  exact and_and_and_comm

/-- An interval is nonempty where its ends are in order, or are one closed point. -/
theorem isEmpty_eq_false_iff_ends (hi : i.IsProper) :
    i.isEmpty = false ↔ i.low.place < i.high.place ∨
      i.low.place = i.high.place ∧ i.lowClosed = true ∧ i.highClosed = true := by
  rw [isEmpty, ← Bool.not_eq_true]
  simp only [Bool.or_eq_true, Bool.and_eq_true, Bool.not_eq_true', Bool.and_eq_false_iff,
    Number.lt_iff hi.high hi.low, Number.same_iff hi.low hi.high]
  rcases lt_trichotomy i.low.place i.high.place with h | h | h
  · simp [h, h.not_gt, h.ne]
  · simp [h]
  · simp [h, h.not_gt, h.ne']

/-- An interval is nonempty where a rational lies between its ends. -/
theorem isEmpty_eq_false_iff (hi : i.IsProper) : i.isEmpty = false ↔ ∃ q, i.Mem q := by
  rw [isEmpty_eq_false_iff_ends hi]
  constructor
  · rintro (h | ⟨h, hlow, hhigh⟩)
    · obtain ⟨q, hlow, hhigh⟩ := Number.exists_place_between h
      exact ⟨q, .inl hlow, .inl hhigh⟩
    · obtain ⟨q, hq⟩ := hi.exists_low hlow
      exact ⟨q, .inr ⟨hq, hlow⟩, .inr ⟨hq.symm.trans h, hhigh⟩⟩
  · rintro ⟨q, hlow | ⟨hlow, hl⟩, hhigh | ⟨hhigh, hh⟩⟩
    · exact .inl (hlow.trans hhigh)
    · exact .inl (hhigh ▸ hlow)
    · exact .inl (hlow ▸ hhigh)
    · exact .inr ⟨hlow.trans hhigh, hl, hh⟩

/-- Two intervals overlap where they share a point. -/
theorem overlaps_iff (hi : i.IsProper) (hj : j.IsProper) :
    i.overlaps j = true ↔ ∃ q, i.Mem q ∧ j.Mem q := by
  rw [overlaps, Bool.not_eq_true', isEmpty_eq_false_iff (hi.intersect hj)]
  exact exists_congr fun q => mem_intersect hi hj

theorem IsProper.containsPoint_iff (hi : i.IsProper) {y : Number} (hy : y.value? = some q) :
    i.containsPoint y = true ↔ i.Mem q := by
  have hn := Number.isNaN_of_value? hy
  have hp := Number.place_of_value? hy
  have hempty : (point y).isEmpty = false := by
    simp [point, isEmpty, ← Bool.not_eq_true, Number.lt_iff hn hn]
  rw [containsPoint, contains, hempty, Bool.false_or]
  simp only [point, Bool.and_eq_true, Bool.or_eq_true, Bool.not_true, Bool.or_false,
    Number.lt_iff hi.low hn, Number.lt_iff hn hi.high, Number.same_iff hi.low hn,
    Number.same_iff hi.high hn]
  simp only [Mem, Above, Below, hp, Number.place_finite, eq_comm]

theorem Above.le (h : i.Above q) : i.low.place ≤ (Number.finite q).place :=
  h.elim le_of_lt fun h => h.1.le

theorem Below.le (h : i.Below q) : (Number.finite q).place ≤ i.high.place :=
  h.elim le_of_lt fun h => h.1.le

theorem Above.mono (h : i.Above p) (hpq : p ≤ q) : i.Above q := by
  unfold Above at h ⊢
  rcases (Number.place_le_place.mpr hpq).lt_or_eq with hlt | heq
  · exact .inl (h.elim (fun h => h.trans hlt) fun h => h.1 ▸ hlt)
  · rwa [← heq]

theorem Below.mono (h : i.Below q) (hpq : p ≤ q) : i.Below p := by
  unfold Below at h ⊢
  rcases (Number.place_le_place.mpr hpq).lt_or_eq with hlt | heq
  · exact .inl (h.elim (fun h => hlt.trans h) fun h => h.1 ▸ hlt)
  · rwa [heq]

/-- Whether an interval begins no later than another one: of two with one lower end the closed
begins first. -/
def BeginsNoLater (i j : Interval) : Prop :=
  i.low.place < j.low.place ∨ i.low.place = j.low.place ∧ (i.lowClosed = true ∨ j.lowClosed = false)

/-- An interval begins no later where its lower end, with open behind closed, comes no later. -/
theorem beginsNoLater_iff : i.BeginsNoLater j ↔
    toLex (i.low.place, !i.lowClosed) ≤ toLex (j.low.place, !j.lowClosed) := by
  rw [Prod.Lex.toLex_le_toLex]
  cases hi : i.lowClosed <;> cases hj : j.lowClosed <;> simp [BeginsNoLater, hi, hj]

/-- The points of a nonempty interval lie above the lower end of another one where the other one
begins no later. -/
theorem forall_above_iff (hj : j.IsProper) (hne : ∃ q, j.Mem q) :
    (∀ q, j.Mem q → i.Above q) ↔ i.BeginsNoLater j := by
  obtain ⟨r, hrlow, hrhigh⟩ := hne
  unfold BeginsNoLater
  constructor
  · intro hall
    by_contra hno
    simp only [not_or, not_and, not_lt, Bool.not_eq_true, Bool.not_eq_false] at hno
    rcases hno.1.lt_or_eq with hlt | heq
    · -- a rational between the two ends, and below a point of the second interval
      obtain ⟨q, hjq, hqi⟩ := Number.exists_place_between hlt
      have hqr : q ≤ r := Number.place_le_place.mp (hqi.le.trans (hall r ⟨hrlow, hrhigh⟩).le)
      rcases hall q ⟨.inl hjq, hrhigh.mono hqr⟩ with h | ⟨h, -⟩
      · exact absurd h hqi.not_gt
      · exact absurd h hqi.ne'
    · obtain ⟨hopen, hclosed⟩ := hno.2 heq.symm
      obtain ⟨q, hq⟩ := hj.exists_low hclosed
      have hqr : q ≤ r := Number.place_le_place.mp (hq ▸ hrlow.le)
      rcases hall q ⟨.inr ⟨hq, hclosed⟩, hrhigh.mono hqr⟩ with h | ⟨-, h⟩
      · exact absurd h (heq ▸ hq ▸ lt_irrefl _)
      · simp [hopen] at h
  · rintro (hlt | ⟨heq, hends⟩) q ⟨hlow, -⟩
    · exact .inl (hlow.elim hlt.trans fun h => h.1 ▸ hlt)
    · rcases hlow with h | ⟨h, hclosed⟩
      · exact .inl (heq ▸ h)
      · exact .inr ⟨heq.trans h, hends.resolve_right (by simp [hclosed])⟩

/-- The points of a nonempty interval lie below the upper end of another one where the other one
ends no earlier: of two with one upper end the open ends first. -/
theorem forall_below_iff (hj : j.IsProper) (hne : ∃ q, j.Mem q) :
    (∀ q, j.Mem q → i.Below q) ↔ j.high.place < i.high.place ∨
      i.high.place = j.high.place ∧ (i.highClosed = true ∨ j.highClosed = false) := by
  obtain ⟨r, hrlow, hrhigh⟩ := hne
  constructor
  · intro hall
    by_contra hno
    simp only [not_or, not_and, not_lt, Bool.not_eq_true, Bool.not_eq_false] at hno
    rcases hno.1.lt_or_eq with hlt | heq
    · obtain ⟨q, hiq, hqj⟩ := Number.exists_place_between hlt
      have hrq : r ≤ q := Number.place_le_place.mp ((hall r ⟨hrlow, hrhigh⟩).le.trans hiq.le)
      rcases hall q ⟨hrlow.mono hrq, .inl hqj⟩ with h | ⟨h, -⟩
      · exact absurd h hiq.not_gt
      · exact absurd h hiq.ne'
    · obtain ⟨hopen, hclosed⟩ := hno.2 heq
      obtain ⟨q, hq⟩ := hj.exists_high hclosed
      have hrq : r ≤ q := Number.place_le_place.mp (hq ▸ hrhigh.le)
      rcases hall q ⟨hrlow.mono hrq, .inr ⟨hq.symm, hclosed⟩⟩ with h | ⟨-, h⟩
      · exact absurd h (heq ▸ hq ▸ lt_irrefl _)
      · simp [hopen] at h
  · rintro (hlt | ⟨heq, hends⟩) q ⟨-, hhigh⟩
    · exact .inl (hhigh.elim (fun h => h.trans hlt) fun h => h.1 ▸ hlt)
    · rcases hhigh with h | ⟨h, hclosed⟩
      · exact .inl (heq ▸ h)
      · exact .inr ⟨h.trans heq.symm, hends.resolve_right (by simp [hclosed])⟩

/-- One interval contains another one where every point of the second lies in the first. -/
theorem contains_iff (hi : i.IsProper) (hj : j.IsProper) :
    i.contains j = true ↔ ∀ q, j.Mem q → i.Mem q := by
  unfold contains
  cases hempty : j.isEmpty with
  | true =>
      have hnone : ∀ q, ¬ j.Mem q := fun q hq => by
        simp [(isEmpty_eq_false_iff hj).mpr ⟨q, hq⟩] at hempty
      simp [hnone]
  | false =>
      have hne := (isEmpty_eq_false_iff hj).mp hempty
      have hboth : (∀ q, j.Mem q → i.Mem q) ↔
          (∀ q, j.Mem q → i.Above q) ∧ ∀ q, j.Mem q → i.Below q :=
        ⟨fun h => ⟨fun q hq => (h q hq).1, fun q hq => (h q hq).2⟩,
          fun h q hq => ⟨h.1 q hq, h.2 q hq⟩⟩
      rw [hboth, forall_above_iff hj hne, forall_below_iff hj hne]
      simp only [BeginsNoLater, Bool.false_or, Bool.and_eq_true, Bool.or_eq_true, Bool.not_eq_true',
        Number.lt_iff hi.low hj.low, Number.same_iff hi.low hj.low, Number.lt_iff hj.high hi.high,
        Number.same_iff hi.high hj.high]

/-- An interval that does not reach another one shares no point with any that begins no earlier. -/
theorem not_mem_of_reaches (hi : i.IsProper) (hj : j.IsProper) (hno : i.reaches j = false)
    (hjk : j.BeginsNoLater k) (hq : i.Mem q) : ¬ k.Mem q := by
  rintro ⟨hlow, -⟩
  rw [← Bool.not_eq_true, reaches] at hno
  simp only [Bool.or_eq_true, Bool.and_eq_true, Number.lt_iff hj.low hi.high,
    Number.same_iff hi.high hj.low, not_or, not_and, not_lt] at hno
  obtain ⟨hle, hends⟩ := hno
  have hstart : j.low.place ≤ k.low.place := hjk.elim le_of_lt fun h => h.1.le
  rcases hq.2 with hbelow | ⟨hbelow, hclosed⟩
  · have hlt : (Number.finite q).place < k.low.place := hbelow.trans_le (hle.trans hstart)
    exact hlow.elim hlt.not_gt fun h => hlt.ne' h.1
  · rcases hlow with hlt | ⟨heq, hk⟩
    · exact (hlt.trans_le (hbelow.le.trans hle)).not_ge hstart
    · have hji : j.low.place = i.high.place :=
        le_antisymm (hstart.trans (heq.trans hbelow).le) hle
      have hjk' : j.lowClosed = true ∨ k.lowClosed = false :=
        hjk.elim (fun h => absurd h (hji.trans (hbelow.symm.trans heq.symm)).not_lt) And.right
      exact hends ⟨hji.symm, hclosed⟩ (hjk'.resolve_right (by simp [hk]))

/-- The ends of an interval are one closed point where the interval has exactly one point. -/
theorem isPoint_iff (hi : i.IsProper) : i.isPoint = true ↔ ∃ q, ∀ p, i.Mem p ↔ p = q := by
  have hpoint : i.isPoint = true ↔
      i.low.place = i.high.place ∧ i.lowClosed = true ∧ i.highClosed = true := by
    simp only [isPoint, Bool.and_eq_true, Number.same_iff hi.low hi.high, and_assoc]
  rw [hpoint]
  constructor
  · rintro ⟨heq, hlow, hhigh⟩
    obtain ⟨q, hq⟩ := hi.exists_low hlow
    refine ⟨q, fun p => ⟨fun ⟨habove, hbelow⟩ => ?_, fun hp => ?_⟩⟩
    · exact le_antisymm (Number.place_le_place.mp (hq ▸ heq ▸ hbelow.le))
        (Number.place_le_place.mp (hq ▸ habove.le))
    · subst hp
      exact ⟨.inr ⟨hq, hlow⟩, .inr ⟨hq.symm.trans heq, hhigh⟩⟩
  · rintro ⟨q, hq⟩
    by_contra hno
    have hlt : i.low.place < i.high.place :=
      ((isEmpty_eq_false_iff_ends hi).mp
        ((isEmpty_eq_false_iff hi).mpr ⟨q, (hq q).mpr rfl⟩)).resolve_right hno
    obtain ⟨a, hlow, ha⟩ := Number.exists_place_between hlt
    obtain ⟨b, hab, hb⟩ := Number.exists_place_between ha
    have haq : a = q := (hq a).mp ⟨.inl hlow, .inl ha⟩
    have hbq : b = q := (hq b).mp ⟨.inl (hlow.trans hab), .inl hb⟩
    rw [haq, hbq] at hab
    exact lt_irrefl _ hab

section Sets

/-- Read as sets of rationals, intervals whose ends are rationals or infinite and open, in order or
not, are empty, meet, overlap and contain each other and single numbers just as the sets do.  An
interval that does not reach another one shares no point with any that begins no earlier than that
one, of two with one lower end the closed beginning first. -/
theorem operations_exact (hi : i.IsProper) (hj : j.IsProper) :
    (i.isEmpty = true ↔ ∀ q, ¬ i.Mem q) ∧
    (∀ q, (i.intersect j).Mem q ↔ i.Mem q ∧ j.Mem q) ∧
    (i.overlaps j = true ↔ ∃ q, i.Mem q ∧ j.Mem q) ∧
    (i.contains j = true ↔ ∀ q, j.Mem q → i.Mem q) ∧
    (∀ y q, y.value? = some q → (i.containsPoint y = true ↔ i.Mem q)) ∧
    (i.reaches j = false → ∀ k : Interval,
      toLex (j.low.place, !j.lowClosed) ≤ toLex (k.low.place, !k.lowClosed) →
        ¬ ∃ q, i.Mem q ∧ k.Mem q) := by
  refine ⟨?_, fun q => mem_intersect hi hj, overlaps_iff hi hj, contains_iff hi hj,
    fun y q hy => hi.containsPoint_iff hy, fun hno k hjk => ?_⟩
  · rw [← not_exists, ← isEmpty_eq_false_iff hi, Bool.not_eq_false]
  · rintro ⟨q, hiq, hkq⟩
    exact not_mem_of_reaches hi hj hno (beginsNoLater_iff.mpr hjk) hiq hkq

/-- At most eighteen. -/
def untilEighteen : Interval := ⟨.negInf, false, .finite 18, true⟩

/-- More than eighteen. -/
def beyondEighteen : Interval := ⟨.finite 18, false, .posInf, false⟩

/-- At most eighteen does not reach what lies beyond, nor anything that begins there or later. -/
theorem operations_exact_eighteen : untilEighteen.IsProper ∧ beyondEighteen.IsProper ∧
    untilEighteen.reaches beyondEighteen = false ∧
    (¬ ∃ q, untilEighteen.Mem q ∧ beyondEighteen.Mem q) ∧
    ∀ x : Number, ¬ ∃ q, untilEighteen.Mem q ∧ Mem ⟨.finite 18, false, x, true⟩ q := by
  have huntil : untilEighteen.IsProper := ⟨rfl, rfl, fun _ => rfl, fun hinfinite =>
    (hinfinite.elim WithBot.coe_ne_bot (Number.coe_lt_top 18).ne).elim⟩
  have hbeyond : beyondEighteen.IsProper := ⟨rfl, rfl, fun _ => rfl, fun _ => rfl⟩
  have hreaches : untilEighteen.reaches beyondEighteen = false := by decide +kernel
  have hoverlaps : ¬ untilEighteen.overlaps beyondEighteen = true := by decide +kernel
  obtain ⟨-, -, hiff, -, -, hbehind⟩ := operations_exact huntil hbeyond
  exact ⟨huntil, hbeyond, hreaches, fun h => hoverlaps (hiff.mpr h),
    fun x => hbehind hreaches ⟨.finite 18, false, x, true⟩ le_rfl⟩

end Sets

end Interval

end Eligibility
