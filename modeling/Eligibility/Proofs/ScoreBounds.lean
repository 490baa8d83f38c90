import Mathlib.Order.Interval.Set.Basic
import Eligibility.Proofs.AcceptedSettings
import Eligibility.Proofs.Measures
/-!
# Bounds of scores

**Shares.**  Each factor is brought to the range from zero to one.  What it is divided by is a
ceiling, which is at least one, or the number of clauses, unless there are none.

**Points.**  The contributions sum up to at most a hundred, up to the tolerance of the weights and
the errors of rounding, so that little is cut off.  The score and the recorded contributions are
rounded one by one; together they differ by less than the last place of the score.

**Results.**
* `share_mem`: the range of shares.
* `abs_recorded_sub_overall_le`: how far recorded contributions and the score differ.
* `PolicyGraph.score_bounds`: the scores of compiled graphs.
-/

namespace Eligibility
open Attempt Rounding

section Quotients

variable (round : ℚ → ℚ)

/-- A quotient, unless the divisor is zero. -/
def quotient? (n d : ℚ) : Option ℚ := if d = 0 then none else some (n / d)

/-- A quotient of at most one, with its division checked. -/
def ratio? (n d : Int) : Option ℚ :=
  if d ≤ 0 then some 0 else (quotient? n d).map fun q => atMost 1 (round q)

/-- The number of operators per clause, with its division checked. -/
def density? (operators clauses : ℕ) : Option ℚ :=
  if clauses = 0 then some 0 else (quotient? operators clauses).map round

/-- The mean of numbers, with its division checked. -/
def mean? (xs : List ℚ) : Option ℚ :=
  if xs.isEmpty then some 1 else (quotient? (Weights.total round xs) xs.length).map round

/-- A factor between zero and one, with its division checked. -/
def Factor.share? (cfg : Settings) (clauses : ℕ) (m : Factors) : Factor → Option ℚ
  | conditionCount => ratio? round m.conditions cfg.conditionCeiling
  | operatorDensity => some (atMost 1 m.density)
  | nestingDepth =>
      (quotient? ((min (m.depth : Int) cfg.nestingCeiling : Int) : ℚ) cfg.nestingCeiling).map round
  | crossReferences => ratio? round m.crossReferences clauses
  | readability => some (round (1 - m.readability))
  | ambiguity => ratio? round m.ambiguities clauses

variable {round}

theorem ratio?_eq (n d : Int) : ratio? round n d = some (ratio round n d) := by
  unfold ratio? ratio
  split
  · rfl
  · next hd =>
    have hd : (d : ℚ) ≠ 0 := by
      rw [Int.cast_ne_zero]
      omega
    rw [quotient?, if_neg hd, Option.map_some]

theorem density?_eq (operators clauses : ℕ) : density? round operators clauses =
    some (if clauses = 0 then 0 else round (operators / clauses)) := by
  unfold density?
  split
  · rfl
  · next hclauses =>
    rw [quotient?, if_neg (by exact_mod_cast hclauses), Option.map_some]

theorem mean?_eq (xs : List ℚ) : mean? round xs = some (PolicyGraph.mean round xs) := by
  unfold mean? PolicyGraph.mean
  split
  · rfl
  · next hxs =>
    have hlength : (xs.length : ℚ) ≠ 0 := by
      rw [Nat.cast_ne_zero]
      exact fun h => hxs (List.isEmpty_iff_length_eq_zero.mpr h)
    rw [quotient?, if_neg hlength, Option.map_some]

/-- No factor is divided by zero. -/
theorem Factor.share?_eq {cfg : Settings} (hcfg : cfg.AreSound) (clauses : ℕ) (m : Factors)
    (f : Factor) : f.share? round cfg clauses m = some (f.share round cfg clauses m) := by
  have hceiling : (cfg.nestingCeiling : ℚ) ≠ 0 := by
    rw [Int.cast_ne_zero]
    have := hcfg.nesting
    omega
  cases f with
  | nestingDepth =>
      rw [share?, quotient?, if_neg hceiling]
      rfl
  | operatorDensity => rfl
  | readability => rfl
  | _ => exact ratio?_eq _ _

end Quotients

section Shares

variable {round : ℚ → ℚ} {cfg : Settings} {m : Factors}

theorem atMost_eq (high q : ℚ) : atMost high q = min q high := by
  unfold atMost
  split
  · next h => exact (min_eq_left h.le).symm
  · next h => exact (min_eq_right (not_lt.mp h)).symm

theorem atLeast_eq (low q : ℚ) : atLeast low q = max low q := by
  unfold atLeast
  split
  · next h => exact (max_eq_right h.le).symm
  · next h => exact (max_eq_left (not_lt.mp h)).symm

theorem atMost_one_mem {q : ℚ} (hq : 0 ≤ q) : atMost 1 q ∈ Set.Icc (0 : ℚ) 1 := by
  rw [atMost_eq]
  exact ⟨le_min hq zero_le_one, min_le_right _ _⟩

/-- Rounding stays between zero and one. -/
theorem IsArithmetic.mem (h : IsArithmetic round) {q : ℚ} (hq : q ∈ Set.Icc (0 : ℚ) 1) :
    round q ∈ Set.Icc (0 : ℚ) 1 := by
  refine ⟨h.nonneg q hq.1, ?_⟩
  have hone := h.le q 1 (by norm_num) (by exact_mod_cast hq.2)
  exact_mod_cast hone

theorem IsArithmetic.zero (h : IsArithmetic round) : round 0 = 0 := by
  have hle := h.le 0 0 (by norm_num) (by norm_num)
  exact le_antisymm (by exact_mod_cast hle) (h.nonneg 0 le_rfl)

theorem ratio_mem (h : IsArithmetic round) {n d : Int} (hn : 0 ≤ n) :
    ratio round n d ∈ Set.Icc (0 : ℚ) 1 := by
  unfold ratio
  split
  · exact ⟨le_rfl, zero_le_one⟩
  · next hd =>
    have hn : (0 : ℚ) ≤ n := by exact_mod_cast hn
    have hd : (0 : ℚ) ≤ d := by exact_mod_cast (not_le.mp hd).le
    exact atMost_one_mem (h.nonneg _ (div_nonneg hn hd))

/-- What holds of measured factors. -/
structure Factors.AreSound (m : Factors) : Prop where
  density : 0 ≤ m.density
  readability : m.readability ∈ Set.Icc (0 : ℚ) 1

/-- Each factor is brought to the range from zero to one. -/
theorem share_mem (h : IsArithmetic round) (hcfg : cfg.AreSound) (hm : m.AreSound) (clauses : ℕ)
    (f : Factor) : f.share round cfg clauses m ∈ Set.Icc (0 : ℚ) 1 := by
  cases f with
  | conditionCount => exact ratio_mem h (Int.natCast_nonneg _)
  | operatorDensity => exact atMost_one_mem hm.density
  | nestingDepth =>
      have hceiling : (0 : ℚ) < cfg.nestingCeiling := by
        exact_mod_cast lt_of_lt_of_le zero_lt_one hcfg.nesting
      have hmin : 0 ≤ min (m.depth : Int) cfg.nestingCeiling :=
        le_min (Int.natCast_nonneg _) (by exact_mod_cast hceiling.le)
      refine h.mem ⟨div_nonneg (by exact_mod_cast hmin) hceiling.le, ?_⟩
      rw [div_le_one hceiling]
      exact_mod_cast min_le_right _ _
  | crossReferences => exact ratio_mem h (Int.natCast_nonneg _)
  | readability => exact h.mem ⟨sub_nonneg.mpr hm.readability.2, sub_le_self _ hm.readability.1⟩
  | ambiguity => exact ratio_mem h (Int.natCast_nonneg _)

end Shares

section Points

variable {round : ℚ → ℚ} {cfg : Settings} {m : Factors} {clauses : ℕ}

/-- The value of the weight of a factor. -/
def Factor.worth (w : Weights) (f : Factor) : ℚ := (f.weight w).value?.getD 0

theorem sum_worth (w : Weights) : (Factor.all.map (Factor.worth w)).sum = w.values.sum := rfl

theorem worth_mem (hcfg : cfg.AreSound) (f : Factor) :
    f.worth cfg.weights ∈ Set.Icc (0 : ℚ) 1 := by
  refine hcfg.weights.values _ ?_
  have hmem : f ∈ Factor.all := by cases f <;> decide
  exact List.mem_map_of_mem (f := Factor.worth cfg.weights) hmem

/-- A factor contributes at most its weight, counted in points of a hundred. -/
theorem points_bounds (h : IsArithmetic round) (hcfg : cfg.AreSound) (hm : m.AreSound)
    (clauses : ℕ) (f : Factor) : 0 ≤ f.points round cfg clauses m ∧
      f.points round cfg clauses m ≤ 100 * f.worth cfg.weights + 2 / 10 ^ 9 := by
  obtain ⟨hworth, hworth'⟩ := worth_mem hcfg f
  obtain ⟨hshare, hshare'⟩ := share_mem h hcfg hm clauses f
  rw [Factor.points, ← Factor.worth]
  generalize f.worth cfg.weights = w at hworth hworth'
  generalize f.share round cfg clauses m = share at hshare hshare'
  have hweighed := h.nonneg (100 * w) (by positivity)
  have hclose := abs_le.mp (h.near (100 * w) (abs_le.mpr ⟨by linarith, by linarith⟩))
  generalize round (100 * w) = weighed at hweighed hclose
  have hle : weighed * share ≤ weighed := mul_le_of_le_one_right hweighed hshare'
  have hnonneg := mul_nonneg hweighed hshare
  have hnear := abs_le.mp (h.near (weighed * share) (abs_le.mpr ⟨by linarith, by linarith⟩))
  exact ⟨h.nonneg _ hnonneg, by linarith⟩

theorem points_eq_zero (h : IsArithmetic round) {f : Factor} (hf : f.worth cfg.weights = 0) :
    f.points round cfg clauses m = 0 := by
  rw [Factor.points, ← Factor.worth, hf, mul_zero, h.zero, zero_mul, h.zero]

end Points

section Scores

variable {round : ℚ → ℚ} {cfg : Settings} {m : Factors} {clauses : ℕ}

/-- Sums of terms that are close are close. -/
theorem abs_sum_sub_sum_le {α : Type} {f k : α → ℚ} {δ : ℚ} {xs : List α}
    (h : ∀ x ∈ xs, |f x - k x| ≤ δ) : |(xs.map f).sum - (xs.map k).sum| ≤ xs.length * δ := by
  induction xs with
  | nil => simp
  | cons x xs ih =>
      obtain ⟨hx, hxs⟩ := List.forall_mem_cons.mp h
      rw [List.map_cons, List.map_cons, List.sum_cons, List.sum_cons, List.length_cons]
      push_cast
      calc |f x + (xs.map f).sum - (k x + (xs.map k).sum)|
          = |(f x - k x) + ((xs.map f).sum - (xs.map k).sum)| := by congr 1; ring
        _ ≤ |f x - k x| + |(xs.map f).sum - (xs.map k).sum| := abs_add_le _ _
        _ ≤ (xs.length + 1) * δ := by linarith [ih hxs]

/-- Little is cut off at a bound that is hardly passed. -/
theorem abs_min_sub_le {x b ε : ℚ} (hε : 0 ≤ ε) (h : x ≤ b + ε) : |min x b - x| ≤ ε := by
  rcases min_choice x b with hmin | hmin
  · rwa [hmin, sub_self, abs_zero]
  · have hle := hmin ▸ min_le_left x b
    rw [hmin, abs_le]
    exact ⟨by linarith, by linarith⟩

/-- A number to some places is at most a half of the last place away, and hardly more where it is
rounded once again. -/
theorem IsArithmetic.abs_toPlaces_sub_le (h : IsArithmetic round) (k : ℕ) {q : ℚ} (hq : 0 ≤ q)
    (hle : q ≤ 1024) : |Score.toPlaces round k q - q| ≤ 1 / (2 * 10 ^ k) + 1 / 10 ^ 9 := by
  have hlow := toPlaces_nonneg (k := k) hq
  have hhigh := toPlaces_le (k := k) hq (n := 1024) (by exact_mod_cast hle)
  push_cast at hhigh
  have hnear := h.near _ (abs_le.mpr ⟨by linarith, hhigh⟩)
  calc |round (Rounding.toPlaces k q) - q|
      ≤ |round (Rounding.toPlaces k q) - Rounding.toPlaces k q| +
          |Rounding.toPlaces k q - q| := abs_sub_le _ _ _
    _ ≤ 1 / (2 * 10 ^ k) + 1 / 10 ^ 9 := by linarith [Rounding.abs_toPlaces_sub_le (k := k) hq]

theorem IsArithmetic.toPlaces_mem (h : IsArithmetic round) (k : ℕ) {n : ℕ} (hn : n ≤ 100) {q : ℚ}
    (hq : q ∈ Set.Icc (0 : ℚ) n) : Score.toPlaces round k q ∈ Set.Icc (0 : ℚ) n :=
  ⟨h.nonneg _ (toPlaces_nonneg hq.1), h.le _ n hn (toPlaces_le hq.1 hq.2)⟩

/-- The points of all factors. -/
def allPoints (round : ℚ → ℚ) (cfg : Settings) (clauses : ℕ) (m : Factors) : List ℚ :=
  Factor.all.map fun f => f.points round cfg clauses m

/-- The exact sum of the points is at most a hundred, up to the tolerance of the weights. -/
theorem sum_allPoints_le (h : IsArithmetic round) (hcfg : cfg.AreSound) (hm : m.AreSound)
    (clauses : ℕ) :
    (allPoints round cfg clauses m).sum ≤ 100 + 3 / 10 ^ 4 := by
  have hweights := (abs_le.mp hcfg.weights.abs_sum_sub_one_le).2
  calc (allPoints round cfg clauses m).sum
      ≤ (Factor.all.map fun f => 100 * f.worth cfg.weights + 2 / 10 ^ 9).sum :=
        List.sum_le_sum fun f _ => (points_bounds h hcfg hm clauses f).2
    _ = 100 * cfg.weights.values.sum + 12 / 10 ^ 9 := by
        rw [List.sum_map_add, List.sum_map_mul_left, sum_worth]
        norm_num [Factor.all]
    _ ≤ 100 + 3 / 10 ^ 4 := by linarith

/-- The score lies between zero and a hundred, close to the exact sum of the points. -/
theorem overallOf_bounds (h : IsArithmetic round) (hcfg : cfg.AreSound) (hm : m.AreSound)
    (clauses : ℕ) :
    Score.overallOf round (Score.contributionsOf round cfg clauses m) ∈ Set.Icc (0 : ℚ) 100 ∧
      |Score.overallOf round (Score.contributionsOf round cfg clauses m) -
        (allPoints round cfg clauses m).sum| ≤ 1 / 20 + 1 / 10 ^ 3 := by
  have hpoints : (Score.contributionsOf round cfg clauses m).map (·.2) =
      allPoints round cfg clauses m := by
    rw [Score.contributionsOf, List.map_map]
    rfl
  have hnonneg : ∀ q ∈ allPoints round cfg clauses m, 0 ≤ q := by
    intro q hq
    obtain ⟨f, -, rfl⟩ := List.mem_map.mp hq
    exact (points_bounds h hcfg hm clauses f).1
  have hsum := sum_allPoints_le h hcfg hm clauses
  have hlength : (allPoints round cfg clauses m).length = 6 := rfl
  have htotal := h.abs_total_sub_le hnonneg (by rw [hlength]; push_cast; linarith)
  have hlow := total_nonneg h.nonneg hnonneg
  rw [hlength] at htotal
  push_cast at htotal
  rw [Score.overallOf, hpoints, atLeast_eq, max_eq_right hlow, atMost_eq]
  generalize (allPoints round cfg clauses m).sum = sum at hsum htotal
  generalize Weights.total round (allPoints round cfg clauses m) = total at htotal hlow
  obtain ⟨htotal₁, htotal₂⟩ := abs_le.mp htotal
  have hcut : |min total 100 - total| ≤ 4 / 10 ^ 4 :=
    abs_min_sub_le (by norm_num) (by linarith)
  have hkept : min total 100 ∈ Set.Icc (0 : ℚ) 100 :=
    ⟨le_min hlow (by norm_num), min_le_right _ _⟩
  have hplaced := h.abs_toPlaces_sub_le 1 hkept.1 (hkept.2.trans (by norm_num))
  refine ⟨h.toPlaces_mem 1 le_rfl (by exact_mod_cast hkept), ?_⟩
  generalize min total 100 = kept at hcut hplaced
  generalize Score.toPlaces round 1 kept = placed at hplaced
  -- three errors on the way: of the sum, of what is cut off, and of the places
  obtain ⟨hcut₁, hcut₂⟩ := abs_le.mp hcut
  obtain ⟨hplaced₁, hplaced₂⟩ := abs_le.mp hplaced
  exact abs_le.mpr ⟨by linarith, by linarith⟩

/-- A recorded contribution is close to the points of its factor. -/
theorem abs_recorded_sub_points_le (h : IsArithmetic round) (hcfg : cfg.AreSound)
    (hm : m.AreSound) (clauses : ℕ) (f : Factor) :
    |((Score.recorded round cfg.weights (f, f.points round cfg clauses m)).2.value?.getD 0) -
      f.points round cfg clauses m| ≤ 1 / 200 + 1 / 10 ^ 9 := by
  unfold Score.recorded
  dsimp only
  split
  · next hweight =>
    have hworth : f.worth cfg.weights = 0 := by
      rw [Factor.worth, hweight]
      rfl
    rw [points_eq_zero h hworth]
    norm_num [Number.value?]
  · obtain ⟨hlow, hhigh⟩ := points_bounds h hcfg hm clauses f
    have hworth := (worth_mem hcfg f).2
    refine (h.abs_toPlaces_sub_le 2 hlow (by linarith)).trans ?_
    norm_num

/-- The recorded contributions sum up to the score, up to one in its last place. -/
theorem abs_recorded_sub_overall_le (h : IsArithmetic round) (hcfg : cfg.AreSound)
    (hm : m.AreSound) (clauses : ℕ) :
    |((Score.of round cfg clauses m).contributions.map fun c => c.2.value?.getD 0).sum -
      (Score.of round cfg clauses m).overall| ≤ 1 / 10 := by
  have hoverall := (overallOf_bounds h hcfg hm clauses).2
  have hrecorded := abs_sum_sub_sum_le fun f (_ : f ∈ Factor.all) =>
    abs_recorded_sub_points_le h hcfg hm clauses f
  rw [show (Factor.all.length : ℚ) = 6 by norm_num [Factor.all]] at hrecorded
  change |((((Score.contributionsOf round cfg clauses m).map
    (Score.recorded round cfg.weights))).map _).sum -
      Score.overallOf round (Score.contributionsOf round cfg clauses m)| ≤ _
  generalize Score.overallOf round (Score.contributionsOf round cfg clauses m) = overall at hoverall
  rw [Score.contributionsOf, List.map_map, List.map_map]
  rw [allPoints, abs_sub_comm] at hoverall
  exact (abs_sub_le _ _ _).trans (by
    refine (add_le_add hrecorded hoverall).trans ?_
    norm_num)

/-- What holds of the score of policies with so many clauses. -/
structure Score.IsSound (s : Score) (round : ℚ → ℚ) (cfg : Settings) (clauses : ℕ) : Prop where
  made : s = Score.of round cfg clauses s.factors
  divided : ∀ f : Factor, f.share? round cfg clauses s.factors =
    some (f.share round cfg clauses s.factors)
  density : ∃ operators, density? round operators clauses = some s.factors.density
  readability : ∃ xs : List ℚ, xs.length = clauses ∧
    mean? round xs = some s.factors.readability
  shares : ∀ f : Factor, f.share round cfg clauses s.factors ∈ Set.Icc (0 : ℚ) 1
  overall : s.overall ∈ Set.Icc (0 : ℚ) 100
  band : s.band = Band.of (.finite s.overall)
  contributions :
    |(s.contributions.map fun c => c.2.value?.getD 0).sum - s.overall| ≤ 1 / 10

/-- The score of measured factors is sound. -/
theorem isSound_of (h : IsArithmetic round) (hcfg : cfg.AreSound) (hm : m.AreSound)
    (hdensity : ∃ operators, density? round operators clauses = some m.density)
    (hreadability : ∃ xs : List ℚ, xs.length = clauses ∧ mean? round xs = some m.readability) :
    (Score.of round cfg clauses m).IsSound round cfg clauses where
  made := rfl
  divided := Factor.share?_eq hcfg clauses m
  density := hdensity
  readability := hreadability
  shares := share_mem h hcfg hm clauses
  overall := (overallOf_bounds h hcfg hm clauses).1
  band := rfl
  contributions := abs_recorded_sub_overall_le h hcfg hm clauses

end Scores

namespace PolicyGraph

variable {base cfg : Settings} {g : PolicyGraph} {s : RuleSet} {p : Plan} {round : ℚ → ℚ}
  {reader : Option ReadabilityReader}

section Readabilities

theorem clamp_mem (x : Number) : clamp x ∈ Set.Icc (0 : ℚ) 1 := by
  unfold clamp
  split
  · exact ⟨zero_le_one, le_rfl⟩
  · rw [atLeast_eq]
    exact atMost_one_mem (le_max_left _ _)

theorem clauseReadability_mem {n : Node} {q : ℚ}
    (h : clauseReadability cfg reader n = .ok q) : q ∈ Set.Icc (0 : ℚ) 1 := by
  unfold clauseReadability at h
  split at h
  · exact Except.ok.inj h ▸ clamp_mem _
  · obtain ⟨x, -, rfl⟩ := map_eq_ok.mp h
    exact clamp_mem x

theorem mean_mem (h : IsArithmetic round) {xs : List ℚ}
    (hxs : ∀ x ∈ xs, x ∈ Set.Icc (0 : ℚ) 1) : mean round xs ∈ Set.Icc (0 : ℚ) 1 := by
  unfold mean
  split
  · exact ⟨zero_le_one, le_rfl⟩
  · have htotal := h.total_le xs hxs
    have hnonneg := total_nonneg h.nonneg fun x hx => (hxs x hx).1
    have hlength : (0 : ℚ) ≤ xs.length := Nat.cast_nonneg _
    exact h.mem ⟨div_nonneg hnonneg hlength, div_le_one_of_le₀ htotal hlength⟩

end Readabilities

/-- A declared policy that is named is scored, or else all declared ones. -/
theorem IsDrawnFrom.scoredPolicies_eq (h : g.IsDrawnFrom base p) {policy : Option String}
    (hpolicy : ∀ a ∈ policy, a ∈ p.documents.map Document.policy) :
    g.scoredPolicies (Json.str? policy) =
      .ok ((policy.elim (p.documents.map Document.policy) fun a => [a]).map .str) := by
  cases policy with
  | none =>
      refine congrArg Except.ok ?_
      rw [policyIds, h.policies_eq_map, Option.elim_none, List.map_map, List.map_map]
      exact List.map_congr_left fun d _ => Plan.policyNode_policy base d _
  | some a =>
      obtain ⟨d, hd, rfl⟩ := List.mem_map.mp (hpolicy a rfl)
      have hnode : g.policyNode? (.str d.policy) = _ := h.node?_policy hd
      simp [Json.str?, scoredPolicies, hnode]

/-- The policies to score are declared, unless the one that is named is unknown. -/
theorem IsDrawnFrom.scoredPolicies_cases (h : g.IsDrawnFrom base p) (policy : Option String) :
    (∃ a ∈ policy, ¬ g.IsInternal a ∧
      g.scoredPolicies (Json.str? policy) = .error (.unknownPolicy (.str a))) ∨
    ∃ as : List String, (∀ a ∈ as, a ∈ p.documents.map Document.policy) ∧
      g.scoredPolicies (Json.str? policy) = .ok (as.map .str) := by
  cases policy with
  | none => exact .inr ⟨_, fun a ha => ha, h.scoredPolicies_eq (by simp)⟩
  | some a =>
      by_cases ha : a ∈ p.documents.map Document.policy
      · exact .inr ⟨[a], by simpa using ha, h.scoredPolicies_eq (by simpa using ha)⟩
      · refine .inl ⟨a, rfl, fun hinternal => ha (h.isInternal_iff.mp hinternal), ?_⟩
        cases hn : g.policyNode? (.str a) with
        | none => simp [Json.str?, scoredPolicies, hn]
        | some n =>
            have hnode : g.node? (.str (Node.policyKey a)) = some n := by
              rwa [policyNode?, Node.policyId_str] at hn
            obtain ⟨hmem, hid⟩ := node?_spec hnode
            have hexternal : n.isExternal = true := by
              rcases h.eq_of_policy hmem (h.isLegible.key n hmem a hid) with
                ⟨d, hd, rfl⟩ | ⟨_, -, t, -, rfl⟩
              · exact absurd (Node.policyKey_inj.mp (Json.str.inj hid) ▸ List.mem_map_of_mem hd) ha
              · exact Plan.externalNode_isExternal t
            simp [Json.str?, scoredPolicies, hn, hexternal]

/-- The measure of declared policies gives a sound score. -/
theorem IsDrawnFrom.exists_isSound (h : g.IsDrawnFrom base p) (hs : s.IsAccepted)
    (hp : s.plan = .ok p) (hround : IsArithmetic round) (hcfg : cfg.AreSound)
    (hreader : IsNumeric reader) {as : List String} (has : ∀ a ∈ as, g.HasPolicy a) :
    ∃ m n, g.measure round cfg reader (as.map .str) = .ok (m, n) ∧
      (Score.of round cfg n m).IsSound round cfg n := by
  obtain ⟨xs, hxs⟩ := exists_readabilities (p := p) hreader cfg as
  have hmem : ∀ x ∈ xs, x ∈ Set.Icc (0 : ℚ) 1 := by
    intro x hx
    obtain ⟨n, -, hn⟩ := exists_of_mem_mapM hxs hx
    exact clauseReadability_mem hn
  have hlength : xs.length = (Tally.total (as.map fun a => s.tally a base)).clauses := by
    rw [← (mapM_eq_ok.mp hxs).length_eq, length_clauseNodes hs hp]
    simp [Tally.total, RuleSet.tally, Function.comp_def]
  refine ⟨_, _, by rw [h.measure_eq hs hp has, hxs, map_ok], ?_⟩
  refine isSound_of hround hcfg ⟨?_, mean_mem hround hmem⟩ ⟨_, density?_eq _ _⟩
    ⟨xs, hlength, mean?_eq xs⟩
  dsimp only
  split
  · exact le_rfl
  · exact hround.nonneg _ (by positivity)

/-- A score of a compiled graph, with settings that are read, lies within its bounds, and so do its
parts.  This holds of exact arithmetic and of double precision. -/
theorem score_bounds {payload : Json} {fs : List (String × Json)}
    (hg : (RuleSet.compile base payload).outcome = .ok g) (hcfg : Settings.read fs = .ok cfg)
    (hround : round = id ∨ round = Number.keep) (hreader : IsNumeric reader)
    (policy : Option String) :
    (∃ a ∈ policy, ¬ g.IsInternal a ∧ scoreOf round cfg reader g (Json.str? policy) =
      .error (.unknownPolicy (.str a))) ∨
    ∃ s names n, scoreOf round cfg reader g (Json.str? policy) = .ok s ∧
      g.scoredPolicies (Json.str? policy) = .ok names ∧
      g.measure round cfg reader names = .ok (s.factors, n) ∧ s.IsSound round cfg n := by
  obtain ⟨s, -, hs, hbuild⟩ := exists_of_compile hg
  obtain ⟨p, hp, h⟩ := isDrawnFrom_of_build hs hbuild
  have hround : IsArithmetic round := by
    rcases hround with rfl | rfl
    · exact isArithmetic_id
    · exact isArithmetic_keep
  rcases h.scoredPolicies_cases policy with ⟨a, ha, hunknown, herror⟩ | ⟨as, has, hnames⟩
  · exact .inl ⟨a, ha, hunknown, by rw [scoreOf, herror]; rfl⟩
  · have hpolicies : ∀ a ∈ as, g.HasPolicy a := by
      intro a ha
      obtain ⟨d, hd, rfl⟩ := List.mem_map.mp (has a ha)
      exact h.hasPolicy hd
    obtain ⟨m, n, hm, hsound⟩ := h.exists_isSound (RuleSet.isAccepted_of_validate hs).1
      (RuleSet.checkedPlan_spec hp).1 hround (Settings.areSound_of_read hcfg) hreader hpolicies
    exact .inr ⟨_, _, n, by rw [scoreOf, hnames, ok_bind, hm]; rfl, hnames, hm, hsound⟩

/-- With the standard settings a policy of two comparisons gets a score within its bounds. -/
theorem score_bounds_rivals : ∃ g s names n,
    (RuleSet.compile .standard (rivalsPayload .eq "a" .neq "b")).outcome = .ok g ∧
      Settings.read [] = .ok .standard ∧
      scoreOf id .standard none g (Json.str? (some "p")) = .ok s ∧
      g.measure id .standard none names = .ok (s.factors, n) ∧ s.IsSound id .standard n := by
  obtain ⟨g, hg, -, hp⟩ : ∃ g, (RuleSet.compile .standard
      (rivalsPayload .eq "a" .neq "b")).outcome = .ok g ∧ g.IsDrawnFrom .standard
        (rivalsPlan .eq "a" .neq "b") ∧ g.IsInternal "p" :=
    exists_rivals rfl (by decide +kernel) rfl (by decide +kernel)
  have hreader : IsNumeric none := fun read hread => by cases hread
  rcases score_bounds hg Settings.read_nil (.inl rfl) hreader (some "p") with
    ⟨a, ha, hunknown, -⟩ | ⟨s, names, n, hs, -, hm, hsound⟩
  · obtain rfl := Option.some.inj ha
    exact absurd hp hunknown
  · exact ⟨g, s, names, n, hg, Settings.read_nil, hs, hm, hsound⟩

end PolicyGraph
end Eligibility
