import Eligibility.Proofs.EquivalentRules
import Eligibility.Proofs.MatchingEvaluations
/-!
# The order of operands, rules and documents

**Order.**  A rule set in another order has the same heads, and the trees below them, its top-level
rules and its documents in some order.

**Verdicts.**  A rule set in another order gets the same verdicts, in a trace of another order.
What depends on the order is which of two zeros is the smallest or the largest of several
confidences; it shows in the warning about a low confidence, which spells the sign of a zero.

**Results.**
* `agree_of_varies`: what verdicts have in common whose evaluations match.
* `evaluate_reordered`: verdicts on rule sets in another order.
* `not_forall_warnings_reordered`: a warning that depends on the order.
-/

namespace Eligibility

namespace Number

/-- Numbers that are the same are equal, or two zeros. -/
theorem eq_or_zeros_of_same {x y : Number} (h : x.same y = true) :
    x = y ∨ x = zero ∧ y = negZero ∨ x = negZero ∧ y = zero := by
  cases x <;> cases y <;> simp_all [same, value?, zero, eq_comm]

theorem lt_of_same {x y z : Number} (h : x.same y = true) : x.lt z = y.lt z := by
  rcases eq_or_zeros_of_same h with rfl | ⟨rfl, rfl⟩ | ⟨rfl, rfl⟩
  · rfl
  all_goals cases z <;> rfl

/-- The text of a zero spells its sign. -/
theorem length_fixed_zeros : (zero.fixed 2).length ≠ (negZero.fixed 2).length := by
  decide +kernel

end Number

section Warnings

variable {cfg : Settings} {x y : Number}

/-- The warnings about confidences that are the same number. -/
theorem PolicyGraph.confidenceWarnings_of_same (h : x.same y = true)
    (hkept : x = y ∨ x.lt cfg.lowConfidenceWarning = false) :
    confidenceWarnings cfg x = confidenceWarnings cfg y := by
  rcases hkept with rfl | hlow
  · rfl
  · rw [confidenceWarnings, confidenceWarnings, ← Number.lt_of_same h, hlow]
    rfl

/-- Warnings about two confidences that read the same are about equal ones, or there are none. -/
theorem PolicyGraph.eq_of_confidenceWarnings (h : x.same y = true)
    (hmessages : (confidenceWarnings cfg x).map Warning.message =
      (confidenceWarnings cfg y).map Warning.message) :
    x = y ∨ x.lt cfg.lowConfidenceWarning = false := by
  by_contra hnot
  obtain ⟨hne, hlow⟩ := not_or.mp hnot
  rw [Bool.not_eq_false] at hlow
  unfold confidenceWarnings at hmessages
  rw [← Number.lt_of_same h, if_pos hlow, if_pos hlow] at hmessages
  have hlength : (x.fixed 2).length = (y.fixed 2).length := by
    simpa using congrArg (List.map String.length) hmessages
  rcases Number.eq_or_zeros_of_same h with rfl | ⟨rfl, rfl⟩ | ⟨rfl, rfl⟩
  · exact hne rfl
  · exact Number.length_fixed_zeros hlength
  · exact Number.length_fixed_zeros hlength.symm

end Warnings

/-- Verdicts that agree but for the order of their steps and the signs of confidences that are
zero.  Their warnings are the same but for one about a confidence of zero. -/
structure Verdict.SaysAs (cfg : Settings) (v w : Verdict) : Prop where
  policy : v.policy = w.policy
  status : v.status = w.status
  confidence : v.confidence.same w.confidence = true
  requirements : v.requirements = w.requirements
  findings : Matched (Finding.Varies Number.Same) (v.trace.map Step.finding)
    (w.trace.map Step.finding)
  missing : v.warnings.filter (fun x => decide (x.kind = .missingInput)) =
    w.warnings.filter fun x => decide (x.kind = .missingInput)
  warnings : v.confidence = w.confidence ∨ v.confidence.lt cfg.lowConfidenceWarning = false →
    v.warnings = w.warnings
  messages : v.warnings.map Warning.message = w.warnings.map Warning.message →
    v.confidence = w.confidence ∨ v.confidence.lt cfg.lowConfidenceWarning = false

/-- Verdicts that agree but for the order of their steps. -/
structure Verdict.Reorders (v w : Verdict) : Prop where
  policy : v.policy = w.policy
  status : v.status = w.status
  confidence : v.confidence = w.confidence
  requirements : v.requirements = w.requirements
  findings : (v.trace.map Step.finding).Perm (w.trace.map Step.finding)
  warnings : v.warnings = w.warnings

theorem Outcome.Varies.eq {o o' : Outcome} (h : o.Varies Number.Unsigned o') : o = o' := by
  obtain ⟨value, confidence, pending⟩ := o
  obtain ⟨value', confidence', pending'⟩ := o'
  obtain ⟨hvalue, hpending, hconfidence⟩ := h
  dsimp only at hvalue hpending hconfidence
  rw [hvalue, hpending, hconfidence.eq]

namespace PolicyGraph

variable {cfg : Settings} {s t : RuleSet} {k : Name} {e e' : Evaluated} {v w : Verdict}

section Evaluations

theorem statusOf_of_same {o o' : Outcome} (h : o.Varies Number.Same o') :
    statusOf cfg o = statusOf cfg o' := by
  have hle : ∀ x : Number, x.le o.confidence = x.le o'.confidence := fun x => by
    rw [Bool.eq_iff_iff]
    exact ⟨fun hx => Number.le_trans hx h.confidence.1.2.2,
      fun hx => Number.le_trans hx h.confidence.2.2.2⟩
  rw [statusOf, statusOf, h.value, hle, hle]

/-- Evaluations that match up to the signs of zeros come to verdicts that do. -/
theorem saysAs_of_varies (h : e.Varies Number.Same e') (hv : conclude cfg k e = .ok v)
    (hw : conclude cfg k e' = .ok w) : v.SaysAs cfg w := by
  obtain ⟨a, rfl, rfl⟩ := conclude_eq_ok hv
  obtain ⟨b, hb, rfl⟩ := conclude_eq_ok hw
  have hsame : e.outcome.confidence.same e'.outcome.confidence = true :=
    Number.same_of_le h.outcome.confidence.1.2.2 h.outcome.confidence.2.2.2
  constructor
  · exact Json.str.inj hb
  · exact statusOf_of_same h.outcome
  · exact hsame
  · dsimp only
    rw [h.outcome.value, h.outcome.pending]
  · rw [map_finding_enumerate, map_finding_enumerate]
    exact h.findings
  · rw [filter_warnings, filter_warnings, h.missing]
  · intro hkept
    dsimp only
    rw [h.missing, confidenceWarnings_of_same hsame hkept]
  · intro hmessages
    dsimp only at hmessages
    rw [h.missing, List.map_append, List.map_append, List.append_cancel_left_eq] at hmessages
    exact eq_of_confidenceWarnings hsame hmessages

/-- Evaluations that match come to verdicts that agree but for the order of their steps. -/
theorem reorders_of_varies (h : e.Varies Number.Unsigned e') (hv : conclude cfg k e = .ok v)
    (hw : conclude cfg k e' = .ok w) : v.Reorders w := by
  obtain ⟨a, rfl, rfl⟩ := conclude_eq_ok hv
  obtain ⟨b, hb, rfl⟩ := conclude_eq_ok hw
  have houtcome : e.outcome = e'.outcome := h.outcome.eq
  have hfindings : Matched (· = ·) e.findings e'.findings :=
    h.findings.imp fun f _ f' _ hf => by rw [hf.eq, hf.confidence.eq]
  refine ⟨Json.str.inj hb, ?_, ?_, ?_, ?_, ?_⟩ <;> dsimp only
  · rw [houtcome]
  · rw [houtcome]
  · rw [houtcome]
  · rw [map_finding_enumerate, map_finding_enumerate]
    exact Matched.eq_iff.mp hfindings
  · rw [h.missing, houtcome]

end Evaluations

section RuleSets

theorem exists_confidence (hs : s.validate cfg = .ok s) {h : Head} (hh : h ∈ s.heads) :
    ∃ x, h.confidence = some x ∧ Head.isConfidence x = true := by
  rw [RuleSet.heads, Rule.headsOf_eq_map_walkAll] at hh
  obtain ⟨r, hr, rfl⟩ := List.mem_map.mp hh
  obtain ⟨x, q, hx, hq, hrange⟩ :=
    ((RuleSet.validate_eq_ok_iff.mp hs).rules r hr).confidence
  exact ⟨x, hx, Head.isConfidence_iff.mpr ⟨q, hq, hrange⟩⟩

/-- A rule set in another order matches the original one up to the signs of zeros. -/
theorem matches_same (hs : s.validate cfg = .ok s) (hst : s.Matches (· = ·) t) :
    s.Matches (Head.Varies Number.Same) t := by
  refine hst.imp fun h hh k hk => ?_
  obtain ⟨x, hx, hconfidence⟩ := exists_confidence hs hh
  subst hk
  have hle := Number.le_refl (Number.isNaN_of_isConfidence hconfidence)
  exact ⟨rfl, x, x, hx, hx, ⟨hconfidence, hconfidence, hle⟩, hconfidence, hconfidence, hle⟩

/-- A rule set in another order matches the original one, if no confidence is a zero with a minus
sign. -/
theorem matches_unsigned (hs : s.validate cfg = .ok s) (hst : s.Matches (· = ·) t)
    (hsigns : ∀ h ∈ s.heads, h.confidence ≠ some .negZero) :
    s.Matches (Head.Varies Number.Unsigned) t := by
  refine hst.imp fun h hh k hk => ?_
  obtain ⟨x, hx, hconfidence⟩ := exists_confidence hs hh
  subst hk
  exact ⟨rfl, x, x, hx, hx, hconfidence, fun hneg => hsigns h hh (hneg ▸ hx), rfl⟩

/-- A rule set in another order is accepted, and both graphs return verdicts on the same queries:
with the same status, confidence and requirements, the same warnings but for the sign of a zero,
and steps in another order.  They differ in nothing but the order of their steps if no confidence
is a zero with a minus sign. -/
theorem evaluate_reordered (hs : s.validate cfg = .ok s) (hst : s.Matches (· = ·) t) :
    t.validate cfg = .ok t ∧ ∃ g h, (s.build cfg).outcome = .ok g ∧
      (t.build cfg).outcome = .ok h ∧ ∀ policy inputs,
      ((∃ v, (g.evaluate cfg policy inputs).outcome = .ok v) ↔
        ∃ w, (h.evaluate cfg policy inputs).outcome = .ok w) ∧
      ∀ v w, (g.evaluate cfg policy inputs).outcome = .ok v →
        (h.evaluate cfg policy inputs).outcome = .ok w → v.SaysAs cfg w ∧
          ((∀ k ∈ s.heads, k.confidence ≠ some .negZero) → v.Reorders w) := by
  obtain ⟨ht, g, h, p, q, hg, hh, hgp, hhq, hpq⟩ :=
    exists_graphs_of_matches Number.isRespected_same (matches_same hs hst) hs
  refine ⟨ht, g, h, hg, hh, fun policy inputs => ?_⟩
  obtain ⟨hiff, hparts⟩ :=
    evaluate_of_matches Number.isRespected_same hgp hhq hpq cfg policy inputs
  refine ⟨hiff, fun v w hv hw => ⟨?_, fun hsigns => ?_⟩⟩
  · obtain ⟨k, e, e', he, hconclude, hconclude'⟩ := hparts v w hv hw
    exact saysAs_of_varies he hconclude hconclude'
  · obtain ⟨-, g', h', p', q', hg', hh', hgp', hhq', hpq'⟩ :=
      exists_graphs_of_matches Number.isRespected_unsigned (matches_unsigned hs hst hsigns) hs
    obtain rfl := Except.ok.inj (hg.symm.trans hg')
    obtain rfl := Except.ok.inj (hh.symm.trans hh')
    obtain ⟨k, e, e', he, hconclude, hconclude'⟩ := (evaluate_of_matches
      Number.isRespected_unsigned hgp' hhq' hpq' cfg policy inputs).2 v w hv hw
    exact reorders_of_varies he hconclude hconclude'

end RuleSets

section Pledges

/-- A pledge that has to be paid and to be signed, by rules of some confidences and in some
order. -/
def pledge (xs : List (String × Number)) : RuleSet where
  rules := [.node { id := "r", subject := "any", operator := .and, clause := "c",
                    confidence := some Number.one } (xs.map fun x =>
    .node { id := x.1, subject := x.1, operator := .eq, value := some (.flag true), clause := "c",
            confidence := some x.2 } [])]

theorem pledge_matches {xs ys : List (String × Number)} (h : xs.Perm ys) :
    (pledge xs).Matches (· = ·) (pledge ys) where
  version := rfl
  domains := rfl
  documents := .nil
  rules := by
    refine .cons (.node rfl ?_) .nil
    have hsame : ∀ r : Rule, r.Matches (· = ·) r := fun r => by
      induction r using Rule.induction with
      | node k cs ih => exact .node rfl (Multiset.rel_refl_of_refl_on fun c hc => ih c hc)
    exact (Matched.eq_iff.mpr (h.map _)).imp fun r _ _ _ hru => hru ▸ hsame r

theorem validate_pledge {xs : List (String × Number)}
    (hfault : (pledge xs).fault? .standard = none) :
    (pledge xs).validate .standard = .ok (pledge xs) := by
  simp only [RuleSet.validate, hfault]

theorem exists_verdict_pledge {xs : List (String × Number)} {g : PolicyGraph}
    (hs : (pledge xs).validate .standard = .ok (pledge xs))
    (hg : ((pledge xs).build .standard).outcome = .ok g)
    (hseparate : ∀ r ∈ (pledge xs).rules, ∀ x ∈ r.scenes [] [] true, ∀ c ∈ x.context,
      x.leaf.head.subject ≠ c.head.subject) :
    ∃ v, (g.evaluate .standard (.str "r") (.obj [])).outcome = .ok v := by
  have hes : Fault.mappingOrEmpty (.obj []) = .ok [] := rfl
  have hq : Query.check (.str "r") [] = .ok ⟨"r", []⟩ := rfl
  exact exists_verdict_of_separate hs hg rfl rfl (hseparate _ List.mem_cons_self) hes hq
    (by simp [Rule.InRange])

theorem meaning_of_pledge {xs : List (String × Number)} {g : PolicyGraph}
    (hs : (pledge xs).validate .standard = .ok (pledge xs))
    (hg : ((pledge xs).build .standard).outcome = .ok g) {v : Verdict}
    (hv : (g.evaluate .standard (.str "r") (.obj [])).outcome = .ok v) :
    ∃ o, (pledge xs).meaning [] "r" = some o ∧ v.confidence = o.confidence ∧
      v.requirements = if o.value.isNone then some o.pending.members else none := by
  obtain ⟨es, q, hes, hq, hv⟩ := evaluate_eq_ok_iff.mp hv
  cases hes
  cases hq
  obtain ⟨-, -, o, ho, -, hconfidence, hrequirements⟩ := meaning_of_verdict hs hg hv
  exact ⟨o, ho, hconfidence, hrequirements⟩

/-- A pledge of which nothing is known waits for a payment and a signature, whichever comes
first. -/
theorem evaluate_reordered_pledge : ∃ g h v w,
    ((pledge [("paid", .one), ("signed", .finite (1 / 2))]).build .standard).outcome = .ok g ∧
    ((pledge [("signed", .finite (1 / 2)), ("paid", .one)]).build .standard).outcome = .ok h ∧
    (g.evaluate .standard (.str "r") (.obj [])).outcome = .ok v ∧
    (h.evaluate .standard (.str "r") (.obj [])).outcome = .ok w ∧
    v.requirements = some ["paid", "signed"] ∧ v.Reorders w := by
  have hs : (pledge [("paid", .one), ("signed", .finite (1 / 2))]).validate .standard = .ok _ :=
    validate_pledge (by decide +kernel)
  obtain ⟨-, g, h, hg, hh, hall⟩ := evaluate_reordered hs (pledge_matches (.swap _ _ _))
  obtain ⟨v, hv⟩ := exists_verdict_pledge hs hg (by decide +kernel)
  obtain ⟨hiff, hsame⟩ := hall (.str "r") (.obj [])
  obtain ⟨w, hw⟩ := hiff.mp ⟨v, hv⟩
  refine ⟨g, h, v, w, hg, hh, hv, hw, ?_, (hsame v w hv hw).2 (by decide +kernel)⟩
  obtain ⟨o, ho, -, hrequirements⟩ := meaning_of_pledge hs hg hv
  have hmeaning : ((pledge [("paid", .one), ("signed", .finite (1 / 2))]).meaning [] "r").map
      (fun o => (o.value, o.pending.members)) = some (none, ["paid", "signed"]) := by
    decide +kernel
  rw [ho, Option.map_some, Option.some.injEq, Prod.mk.injEq] at hmeaning
  rw [hrequirements, hmeaning.1, hmeaning.2]
  rfl

/-- The order of the operands shows in the text of a warning, if the smallest confidences are
zeros of both signs. -/
theorem not_forall_warnings_reordered : ¬ ∀ (cfg : Settings) (s t : RuleSet) (g h : PolicyGraph)
    (policy inputs : Json), s.validate cfg = .ok s → s.Matches (· = ·) t →
    (s.build cfg).outcome = .ok g → (t.build cfg).outcome = .ok h →
      ((∃ v, (g.evaluate cfg policy inputs).outcome = .ok v) ↔
        ∃ w, (h.evaluate cfg policy inputs).outcome = .ok w) ∧
      ∀ v w, (g.evaluate cfg policy inputs).outcome = .ok v →
        (h.evaluate cfg policy inputs).outcome = .ok w →
          v.status = w.status ∧ v.confidence.same w.confidence = true ∧
            v.requirements = w.requirements ∧
            v.warnings.map Warning.message = w.warnings.map Warning.message := by
  intro hclaim
  have hs : (pledge [("paid", .zero), ("signed", .negZero)]).validate .standard = .ok _ :=
    validate_pledge (by decide +kernel)
  have hst := pledge_matches (.swap ("signed", .negZero) ("paid", .zero) [])
  obtain ⟨ht, g, h, p, q, hg, hh, hgp, hhq, hpq⟩ :=
    exists_graphs_of_matches Number.isRespected_same (matches_same hs hst) hs
  obtain ⟨hiff, hsame⟩ := hclaim _ _ _ g h (.str "r") (.obj []) hs hst hg hh
  obtain ⟨v, hv⟩ := exists_verdict_pledge hs hg (by decide +kernel)
  obtain ⟨w, hw⟩ := hiff.mp ⟨v, hv⟩
  obtain ⟨k, e, e', he, hconclude, hconclude'⟩ := (evaluate_of_matches Number.isRespected_same hgp
    hhq hpq .standard (.str "r") (.obj [])).2 v w hv hw
  obtain ⟨o, ho, hconfidence, -⟩ := meaning_of_pledge hs hg hv
  obtain ⟨o', ho', hconfidence', -⟩ := meaning_of_pledge ht hh hw
  have hmeaning : ((pledge [("paid", .zero), ("signed", .negZero)]).meaning [] "r").map
      Outcome.confidence = some .zero := by decide +kernel
  have hmeaning' : ((pledge [("signed", .negZero), ("paid", .zero)]).meaning [] "r").map
      Outcome.confidence = some .negZero := by decide +kernel
  rw [ho, Option.map_some, Option.some.injEq] at hmeaning
  rw [ho', Option.map_some, Option.some.injEq] at hmeaning'
  have hkept := (saysAs_of_varies he hconclude hconclude').messages (hsame v w hv hw).2.2.2
  rw [hconfidence, hconfidence', hmeaning, hmeaning'] at hkept
  exact absurd hkept (by decide +kernel)

end Pledges

end PolicyGraph
end Eligibility
