import Eligibility.Proofs.EquivalentRules
import Eligibility.Proofs.MatchingEvaluations
/-!
# Rules of higher confidence

**Rules.**  A rule set is raised to another one where both have the same rules with the same
operands, and no rule has a lower confidence in the second one.

**Statuses.**  Statuses are ranked by what an applicant gets.  What holds with a higher confidence
gets a status that is no lower.

**Results.**
* `RuleSet.RaisedTo.matches`: a rule set matches one to which it is raised.
* `rank_statusOf_le`: the status of an outcome of higher confidence.
* `evaluate_raised`: verdicts on rule sets of higher confidence.
-/

namespace Eligibility

/-- The statuses in the order of what an applicant gets. -/
def Status.rank : Status → Nat
  | .notEligible => 0
  | .conditional => 1
  | .eligible => 2

/-- Heads that agree in all but the confidence, which is no lower in the second one and at most
one. -/
def Head.RaisedTo (h k : Head) : Prop :=
  h.Varies (fun x y => x.le y = true ∧ y.le Number.one = true) k

/-- Trees of one shape whose heads are raised in the second one. -/
inductive Rule.RaisedTo : Rule → Rule → Prop
  | node {h k : Head} {cs ds : List Rule} (head : h.RaisedTo k)
      (children : List.Forall₂ RaisedTo cs ds) : RaisedTo (node h cs) (node k ds)

/-- Rule sets that differ at most in the confidences of rules, none of which is lower in the second
one. -/
structure RuleSet.RaisedTo (s t : RuleSet) : Prop where
  version : s.version = t.version
  documents : s.documents = t.documents
  domains : s.domains = t.domains
  rules : List.Forall₂ Rule.RaisedTo s.rules t.rules

section Raising

variable {cfg : Settings} {s t : RuleSet}

theorem Number.atMost_of_le {x y : Number} (hx : Head.isConfidence x = true)
    (hxy : x.le y = true) (hy : y.le Number.one = true) : Number.AtMost x y := by
  have hzero : Number.zero.le x = true := (Bool.and_eq_true_iff.mp hx).1
  exact ⟨hx, Bool.and_eq_true_iff.mpr ⟨le_trans hzero hxy, hy⟩, hxy⟩

/-- A tree whose confidences are some matches the tree to which it is raised. -/
theorem Rule.RaisedTo.matches {r u : Rule} (h : r.RaisedTo u)
    (hr : ∀ a ∈ r.walk, ∀ x, a.head.confidence = some x → Head.isConfidence x = true) :
    r.Matches (Head.Varies Number.AtMost) u := by
  induction r using Rule.induction generalizing u with
  | node k cs ih =>
      cases h with
      | node head children =>
          obtain ⟨heq, x, y, hx, hy, hxy, hone⟩ := head
          have hconfidence := hr _ (mem_walk_self _) x hx
          refine .node ⟨heq, x, y, hx, hy, Number.atMost_of_le hconfidence hxy hone⟩ ?_
          refine Matched.of_forall₂ (((List.forall₂_and_left (p := (· ∈ cs)) _ _).mpr
            ⟨fun _ hc => hc, children⟩).imp fun c d hcd => ih c hcd.1 hcd.2 fun a ha => hr a ?_)
          rw [walk]
          exact List.mem_cons_of_mem _ (mem_walkAll.mpr ⟨c, hcd.1, ha⟩)

/-- An accepted rule set matches the rule sets to which it is raised. -/
theorem RuleSet.RaisedTo.matches (h : s.RaisedTo t) (hs : s.IsWellFormed cfg) :
    s.Matches (Head.Varies Number.AtMost) t where
  version := h.version
  domains := h.domains
  documents := .of_eq h.documents
  rules := by
    refine Matched.of_forall₂ (((List.forall₂_and_left (p := (· ∈ s.rules)) _ _).mpr
      ⟨fun _ hr => hr, h.rules⟩).imp fun r u hru => hru.2.matches fun a ha x hx => ?_)
    obtain ⟨y, q, hy, hq, hrange⟩ :=
      (hs.rules a (Rule.mem_walkAll.mpr ⟨r, hru.1, ha⟩)).confidence
    obtain rfl : y = x := Option.some.inj (hy.symm.trans hx)
    exact Head.isConfidence_iff.mpr ⟨q, hq, hrange⟩

end Raising

namespace PolicyGraph

variable {cfg : Settings} {s t : RuleSet}

/-- What holds with a higher confidence gets a status that is no lower. -/
theorem rank_statusOf_le {o o' : Outcome} (h : o.Varies Number.AtMost o') :
    (statusOf cfg o).rank ≤ (statusOf cfg o').rank := by
  have hup : ∀ x : Number, x.le o.confidence = true → x.le o'.confidence = true :=
    fun x hx => Number.le_trans hx h.confidence.2.2
  rw [statusOf, statusOf, ← h.value]
  rcases o.value with _ | _ | _
  · exact le_rfl
  · exact le_rfl
  · dsimp only
    by_cases heligible : cfg.eligibleConfidence.le o.confidence = true
    · rw [if_pos heligible, if_pos (hup _ heligible)]
    · rw [if_neg heligible]
      by_cases hconditional : cfg.conditionalConfidence.le o.confidence = true
      · rw [if_pos hconditional, if_pos (hup _ hconditional)]
        split_ifs <;> decide
      · rw [if_neg hconditional]
        exact Nat.zero_le _

/-- A rule set whose confidences are raised is accepted, and its graph returns a verdict where that
of the original one does: with a confidence and a status that are no lower and with the same
requirements. -/
theorem evaluate_raised (hs : s.validate cfg = .ok s) (hst : s.RaisedTo t) :
    t.validate cfg = .ok t ∧ ∃ g h, (s.build cfg).outcome = .ok g ∧
      (t.build cfg).outcome = .ok h ∧
      ∀ policy inputs v, (g.evaluate cfg policy inputs).outcome = .ok v →
        ∃ w, (h.evaluate cfg policy inputs).outcome = .ok w ∧
          v.confidence.le w.confidence = true ∧ w.requirements = v.requirements ∧
          v.status.rank ≤ w.status.rank := by
  have hK := Number.isRespected_atMost
  have hmatches := hst.matches (RuleSet.validate_eq_ok_iff.mp hs)
  obtain ⟨ht, g, h, p, q, hg, hh, hgp, hhq, hpq⟩ := exists_graphs_of_matches hK hmatches hs
  refine ⟨ht, g, h, hg, hh, fun policy inputs v hv => ?_⟩
  obtain ⟨hiff, hparts⟩ := evaluate_of_matches hK hgp hhq hpq cfg policy inputs
  obtain ⟨w, hw⟩ := hiff.mp ⟨v, hv⟩
  obtain ⟨k, e, e', he, hconclude, hconclude'⟩ := hparts v w hv hw
  obtain ⟨a, -, rfl⟩ := conclude_eq_ok hconclude
  obtain ⟨b, -, rfl⟩ := conclude_eq_ok hconclude'
  refine ⟨_, hw, he.outcome.confidence.2.2, ?_, rank_statusOf_le he.outcome⟩
  dsimp only
  rw [he.outcome.value, he.outcome.pending]

section Fees

/-- A fee that has to be paid. -/
def fee (confidence : Number) : RuleSet where
  rules := [.node { id := "r", subject := "paid", operator := .eq, value := some (.flag true),
                    clause := "c", confidence := some confidence } []]

theorem fee_raisedTo {x y : Number} (hxy : x.le y = true) (hy : y.le Number.one = true) :
    (fee x).RaisedTo (fee y) where
  version := rfl
  documents := rfl
  domains := rfl
  rules := .cons (.node ⟨rfl, x, y, rfl, rfl, hxy, hy⟩ .nil) .nil

theorem status_of_fee {x : Number} {g : PolicyGraph}
    (hs : (fee x).validate .standard = .ok (fee x))
    (hg : ((fee x).build .standard).outcome = .ok g) {v : Verdict}
    (hv : (g.evaluate .standard (.str "r") (.obj [("paid", .bool true)])).outcome = .ok v) :
    v.status = statusOf .standard ⟨some true, x, .empty⟩ ∧ v.confidence = x := by
  obtain ⟨es, q, hes, hq, hv⟩ := evaluate_eq_ok_iff.mp hv
  cases hes
  cases hq
  obtain ⟨-, -, o, ho, hstatus, hconfidence, -⟩ := meaning_of_verdict hs hg hv
  cases ho
  exact ⟨hstatus, hconfidence⟩

/-- A paid fee makes eligible where its rule is certain, and eligible under conditions only where
it is less so. -/
theorem evaluate_raised_fee : ∃ g h v w, ((fee (.finite (5 / 8))).build .standard).outcome = .ok g ∧
    ((fee .one).build .standard).outcome = .ok h ∧
    (g.evaluate .standard (.str "r") (.obj [("paid", .bool true)])).outcome = .ok v ∧
    (h.evaluate .standard (.str "r") (.obj [("paid", .bool true)])).outcome = .ok w ∧
    v.status = .conditional ∧ w.status = .eligible ∧ v.confidence.le w.confidence = true := by
  have hfault : (fee (.finite (5 / 8))).fault? .standard = none := by decide +kernel
  have hs : (fee (.finite (5 / 8))).validate .standard = .ok (fee (.finite (5 / 8))) := by
    simp only [RuleSet.validate, hfault]
  obtain ⟨ht, g, h, hg, hh, hraised⟩ :=
    evaluate_raised hs (fee_raisedTo (y := .one) (by decide +kernel) (by decide +kernel))
  have hes : Fault.mappingOrEmpty (.obj [("paid", .bool true)]) =
      .ok (.ofFields [("paid", .bool true)]) := rfl
  have hq : Query.check (.str "r") (.ofFields [("paid", .bool true)]) =
      .ok ⟨"r", [("paid", .bool true)]⟩ := rfl
  obtain ⟨v, hv⟩ := exists_verdict_of_separate hs hg rfl rfl (by decide +kernel) hes hq
    (by simp [Rule.InRange])
  obtain ⟨w, hw, hle, -, -⟩ := hraised _ _ v hv
  refine ⟨g, h, v, w, hg, hh, hv, hw, ?_, ?_, hle⟩
  · rw [(status_of_fee hs hg hv).1]
    decide +kernel
  · rw [(status_of_fee ht hh hw).1]
    decide +kernel

end Fees

end PolicyGraph
end Eligibility
