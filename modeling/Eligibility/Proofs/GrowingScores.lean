import Eligibility.Proofs.Additions
import Eligibility.Proofs.ScoreBounds
/-!
# Scores of growing rule sets

**Factors.**  Rules are added to a rule set, and its documents stay: then no count gets smaller that
a score is made of, while what is divided by, a ceiling or the number of clauses, stays the same,
and so does the readability of the clauses.

**Scores.**  In exact arithmetic no factor gets smaller, and neither does their weighted sum, for no
weight is below zero.  Cutting off what is above a hundred, rounding to one place and the bands of
scores all respect the order.

**Results.**
* `share_mono`: the factors between zero and one.
* `Factors.AtMost.score`: the score of measured factors.
* `RuleSet.GrowsTo.scores_atMost`: the scores of graphs that are built of growing rule sets.
-/

namespace Eligibility
open Attempt Rounding

/-- The bands in the order of their scores. -/
def Band.rank : Band → Nat
  | .low => 0
  | .moderate => 1
  | .high => 2

/-- Whether factors are at most others, with the same readability. -/
structure Factors.AtMost (m u : Factors) : Prop where
  conditions : m.conditions ≤ u.conditions
  density : m.density ≤ u.density
  depth : m.depth ≤ u.depth
  crossReferences : m.crossReferences ≤ u.crossReferences
  readability : m.readability = u.readability
  ambiguities : m.ambiguities ≤ u.ambiguities

/-- Whether a score in exact arithmetic is at most another one, factor by factor and as a whole. -/
structure Score.AtMost (cfg : Settings) (clauses : ℕ) (s u : Score) : Prop where
  shares : ∀ f : Factor, f.share id cfg clauses s.factors ≤ f.share id cfg clauses u.factors
  overall : s.overall ≤ u.overall
  band : s.band.rank ≤ u.band.rank

section Shares

variable {cfg : Settings} {m u : Factors} {clauses : ℕ}

theorem ratio_mono {n k d : Int} (h : n ≤ k) : ratio id n d ≤ ratio id k d := by
  unfold ratio
  split
  · exact le_rfl
  · next hd =>
    have hd : (0 : ℚ) ≤ d := by exact_mod_cast (not_le.mp hd).le
    rw [atMost_eq, atMost_eq, id, id]
    exact min_le_min_right _ (div_le_div_of_nonneg_right (by exact_mod_cast h) hd)

/-- No factor between zero and one gets smaller where none of what was measured does. -/
theorem share_mono (hcfg : cfg.AreSound) (h : m.AtMost u) (clauses : ℕ) (f : Factor) :
    f.share id cfg clauses m ≤ f.share id cfg clauses u := by
  cases f with
  | conditionCount => exact ratio_mono (by exact_mod_cast h.conditions)
  | operatorDensity =>
      rw [Factor.share, Factor.share, atMost_eq, atMost_eq]
      exact min_le_min_right _ h.density
  | nestingDepth =>
      have hceiling : (0 : ℚ) ≤ cfg.nestingCeiling := by
        exact_mod_cast zero_le_one.trans hcfg.nesting
      have hmin : min (m.depth : Int) cfg.nestingCeiling ≤ min (u.depth : Int) cfg.nestingCeiling :=
        min_le_min_right _ (by exact_mod_cast h.depth)
      exact div_le_div_of_nonneg_right (by exact_mod_cast hmin) hceiling
  | crossReferences => exact ratio_mono (by exact_mod_cast h.crossReferences)
  | readability => rw [Factor.share, Factor.share, h.readability]
  | ambiguity => exact ratio_mono (by exact_mod_cast h.ambiguities)

theorem points_mono (hcfg : cfg.AreSound) (h : m.AtMost u) (clauses : ℕ) (f : Factor) :
    f.points id cfg clauses m ≤ f.points id cfg clauses u := by
  have hworth := (worth_mem hcfg f).1
  rw [Factor.points, Factor.points, ← Factor.worth]
  exact mul_le_mul_of_nonneg_left (share_mono hcfg h clauses f) (by rw [id]; positivity)

end Shares

section Scores

variable {cfg : Settings} {m u : Factors}

/-- Cutting off and rounding respect the order of sums. -/
theorem overallOf_mono {ps qs : List (Factor × ℚ)}
    (h : (ps.map (·.2)).sum ≤ (qs.map (·.2)).sum) :
    Score.overallOf id ps ≤ Score.overallOf id qs := by
  have hlow : (0 : ℚ) ≤ min (max 0 (ps.map (·.2)).sum) 100 :=
    le_min (le_max_left _ _) (by norm_num)
  rw [Score.overallOf, Score.overallOf, total_id, total_id, atLeast_eq, atLeast_eq, atMost_eq,
    atMost_eq]
  exact toPlaces_mono hlow (min_le_min_right _ (max_le_max_left _ h))

theorem rank_of_mono {x y : ℚ} (h : x ≤ y) :
    (Band.of (.finite x)).rank ≤ (Band.of (.finite y)).rank := by
  have hlt : ∀ q r : ℚ, (Number.finite q).lt (.finite r) = true ↔ q < r := fun q r => by
    simp [Number.lt, Number.value?]
  simp only [Band.of, hlt, Band.moderateFrom, Band.highFrom]
  split_ifs <;> first | decide | linarith

/-- The score of factors that are at most others is at most theirs. -/
theorem Factors.AtMost.score (hcfg : cfg.AreSound) (h : m.AtMost u) (clauses : ℕ) :
    (Score.of id cfg clauses m).AtMost cfg clauses (Score.of id cfg clauses u) := by
  have hsum : ((Score.contributionsOf id cfg clauses m).map (·.2)).sum ≤
      ((Score.contributionsOf id cfg clauses u).map (·.2)).sum := by
    rw [Score.contributionsOf, Score.contributionsOf, List.map_map, List.map_map]
    exact List.sum_le_sum fun f _ => points_mono hcfg h clauses f
  have hoverall := overallOf_mono hsum
  exact ⟨share_mono hcfg h clauses, hoverall, rank_of_mono hoverall⟩

/-- What is measured with larger counts is at least as much. -/
theorem Factors.atMost_of_counts {t v : Tally} (h : t.AtMost v) (hm : m.CountAs id t)
    (hu : u.CountAs id v) (hreadability : m.readability = u.readability) : m.AtMost u where
  conditions := by rw [hm.conditions, hu.conditions]; exact h.comparisons
  density := by
    rw [hm.density, hu.density, h.clauses]
    split
    · exact le_rfl
    · exact div_le_div_of_nonneg_right (by exact_mod_cast h.operators) (Nat.cast_nonneg _)
  depth := by rw [hm.depth, hu.depth]; exact h.depth
  crossReferences := by rw [hm.crossReferences, hu.crossReferences]; exact h.links
  readability := hreadability
  ambiguities := by rw [hm.ambiguities, hu.ambiguities]; exact h.flags

end Scores

namespace RuleSet

open PolicyGraph

variable {base cfg : Settings} {s t : RuleSet} {p q : Plan} {g h : PolicyGraph}
  {reader : Option ReadabilityReader}

/-- The same policies of a rule set and of one to which it grows: they are measured with the same
number of clauses, and with the larger factors in the second one. -/
theorem GrowsTo.exists_measures (hst : s.GrowsTo t) (hs : s.IsAccepted) (ht : t.IsAccepted)
    (hp : s.plan = .ok p) (hq : t.plan = .ok q) (hg : g.IsDrawnFrom base p)
    (hh : h.IsDrawnFrom base q) (hreader : IsNumeric reader) (cfg : Settings) {as : List String}
    (has : ∀ a ∈ as, a ∈ s.documents.map Document.policy) :
    ∃ m u n, g.measure id cfg reader (as.map .str) = .ok (m, n) ∧
      h.measure id cfg reader (as.map .str) = .ok (u, n) ∧ m.AtMost u := by
  have hdocuments : q.documents = p.documents := by
    rw [documents_of_plan hp hst.declared, ← hst.documents]
    exact documents_of_plan hq (hst.documents ▸ hst.declared)
  have hpolicies : ∀ a ∈ as, g.HasPolicy a ∧ h.HasPolicy a := by
    intro a ha
    obtain ⟨d, hd, rfl⟩ := List.mem_map.mp (has a ha)
    rw [← documents_of_plan hp hst.declared] at hd
    exact ⟨hg.hasPolicy hd, hh.hasPolicy (hdocuments ▸ hd)⟩
  have hclauses : clauseNodes q as = clauseNodes p as := by
    simp only [clauseNodes, plannedClauses, hdocuments]
  obtain ⟨xs, hxs⟩ := exists_readabilities (p := p) hreader cfg as
  have hcounts : ∀ a ∈ as, (s.tally a base).AtMost (t.tally a base) :=
    fun a _ => hst.tally_atMost hs base a
  have htally := Tally.atMost_total hcounts
  have hmeasure := hg.measure_eq hs hp (fun a ha => (hpolicies a ha).1) id cfg reader
  have hmeasure' := hh.measure_eq ht hq (fun a ha => (hpolicies a ha).2) id cfg reader
  rw [hxs, map_ok] at hmeasure
  rw [hclauses, hxs, map_ok] at hmeasure'
  refine ⟨_, _, _, hmeasure,
    hmeasure'.trans (congrArg (fun n => Except.ok (_, n)) htally.clauses.symm), ?_⟩
  exact Factors.atMost_of_counts htally ⟨rfl, rfl, rfl, rfl, rfl⟩ ⟨rfl, rfl, rfl, rfl, rfl⟩ rfl

/-- Rules are added to an accepted rule set, so that another one with the same documents is
accepted.  Then every declared policy, and all of them together, have as many clauses as before;
in exact arithmetic none of the factors of their score is smaller than before, and neither are the
score and its band. -/
theorem GrowsTo.scores_atMost {fs : List (String × Json)} (hs : s.validate base = .ok s)
    (ht : t.validate base = .ok t) (hst : s.GrowsTo t) (hcfg : Settings.read fs = .ok cfg)
    (hreader : IsNumeric reader) :
    ∃ g h, (s.build base).outcome = .ok g ∧ (t.build base).outcome = .ok h ∧
      ∀ policy : Option String, (∀ a ∈ policy, a ∈ s.documents.map Document.policy) →
        ∃ v w names n, scoreOf id cfg reader g (Json.str? policy) = .ok v ∧
          scoreOf id cfg reader h (Json.str? policy) = .ok w ∧
          g.scoredPolicies (Json.str? policy) = .ok names ∧
          h.scoredPolicies (Json.str? policy) = .ok names ∧
          g.measure id cfg reader names = .ok (v.factors, n) ∧
          h.measure id cfg reader names = .ok (w.factors, n) ∧ v.AtMost cfg n w := by
  obtain ⟨p, g, hp, hg, hgp, -⟩ := exists_build_of_validate hs
  obtain ⟨q, h, hq, hh, hhq, -⟩ := exists_build_of_validate ht
  have hdocuments := documents_of_plan hp hst.declared
  have hdocuments' : q.documents = s.documents :=
    (documents_of_plan hq (hst.documents ▸ hst.declared)).trans hst.documents
  refine ⟨g, h, hg, hh, fun policy hpolicy => ?_⟩
  have hnames := hgp.scoredPolicies_eq (hdocuments ▸ hpolicy)
  have hnames' := hhq.scoredPolicies_eq (hdocuments' ▸ hpolicy)
  rw [hdocuments] at hnames
  rw [hdocuments'] at hnames'
  have hdeclared : ∀ a ∈ policy.elim (s.documents.map Document.policy) fun a => [a],
      a ∈ s.documents.map Document.policy := by
    cases policy with
    | none => exact fun a ha => ha
    | some b => simpa using hpolicy
  obtain ⟨m, u, n, hm, hu, hmu⟩ := hst.exists_measures (isAccepted_of_validate hs).1
    (isAccepted_of_validate ht).1 hp hq hgp hhq hreader cfg hdeclared
  refine ⟨_, _, _, n, ?_, ?_, hnames, hnames', hm, hu,
    hmu.score (Settings.areSound_of_read hcfg) n⟩
  · rw [scoreOf, hnames, ok_bind, hm]
    rfl
  · rw [scoreOf, hnames', ok_bind, hu]
    rfl

section Witness

/-- The first comparison of the shared rule set. -/
def adult : Rule :=
  .node { id := "a", subject := "age", operator := .gte, value := some (.number (.finite 18)),
          clause := "c", confidence := some Number.one } []

/-- The shared rule set before all of its rules but the first comparison are added. -/
def sparse : RuleSet where
  rules := [adult]
  documents := shared.documents

/-- A disjunction is put around the comparison, and then a negation beside it. -/
theorem sparse_growsTo_shared : sparse.GrowsTo shared where
  declared := List.cons_ne_nil _ _
  documents := rfl
  rules := by
    obtain ⟨k, r, hk, hrules⟩ : ∃ k r, k = Head.mk "r" "x" .or none "c" (some Number.one) none ∧
        shared.rules = [.node k [adult, r]] := ⟨_, _, rfl, rfl⟩
    have hchild : Rule.Adds (.node k ([adult] ++ [])) (.node k ([adult] ++ r :: [])) :=
      .child r (.inr (by rw [hk]))
    have haround : Adds sparse.documents ([] ++ adult :: []) ([] ++ .node k [adult] :: []) :=
      .within (.around (by rw [hk]; rfl)) (.inl (by rw [hk]; rfl))
    have hbeside : Adds sparse.documents ([] ++ .node k [adult] :: [])
        ([] ++ .node k [adult, r] :: []) := .within hchild (.inl rfl)
    rw [hrules]
    exact .tail (.single haround) hbeside

/-- With the standard settings no factor of the shared rule set is smaller than before the rules
were added, in its policy with a tree and as a whole. -/
theorem scores_atMost_shared : sparse.validate .standard = .ok sparse ∧
    shared.validate .standard = .ok shared ∧ sparse.GrowsTo shared ∧
    Settings.read [] = .ok .standard ∧
    ∃ g h, (sparse.build .standard).outcome = .ok g ∧ (shared.build .standard).outcome = .ok h ∧
      ∀ policy ∈ [none, some "p"], ∃ v w n,
        scoreOf id .standard none g (Json.str? policy) = .ok v ∧
          scoreOf id .standard none h (Json.str? policy) = .ok w ∧ v.AtMost .standard n w := by
  have hsparse : sparse.fault? .standard = none := by decide +kernel
  have hshared : shared.fault? .standard = none := by decide +kernel
  have hs : sparse.validate .standard = .ok sparse := by rw [validate, hsparse]
  have ht : shared.validate .standard = .ok shared := by rw [validate, hshared]
  have hreader : IsNumeric none := fun read hread => by cases hread
  obtain ⟨g, h, hg, hh, hscores⟩ :=
    sparse_growsTo_shared.scores_atMost hs ht Settings.read_nil hreader
  refine ⟨hs, ht, sparse_growsTo_shared, Settings.read_nil, g, h, hg, hh, fun policy hpolicy => ?_⟩
  obtain ⟨v, w, -, n, hv, hw, -, -, -, -, hvw⟩ := hscores policy (by
    revert policy
    decide)
  exact ⟨v, w, n, hv, hw, hvw⟩

end Witness

end RuleSet
end Eligibility
