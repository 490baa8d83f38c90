import Eligibility.Proofs.Clashes
import Eligibility.Proofs.Verdicts
/-!
# What the trees of a policy force is necessary

**Trees.**  Where a tree takes a truth value, so does every comparison that it forces:
in Kleene's tables a conjunction holds only with all its operands, a disjunction fails
only with all of them, and a negation takes its value from its operand.

**Policies.**  A policy holds only where its trees do.  Against inputs of the domains of
their variables, two commitments that clash are not both kept, and so the policies that
force them do not both hold.

**Results.**
* `isKept_of_mem_forced`: a tree that takes a truth value keeps the commitments it forces.
* `Commitment.Clashes.not_isKept`: commitments that clash are not both kept.
* `IsDrawnFrom.isKept_of_holds`: a policy that holds keeps what its trees force.
-/

namespace Eligibility

namespace Outcome

variable {os : List Outcome}

theorem conjunction_value_eq_true :
    (conjunction os).value = some true ↔ ∀ o ∈ os, o.value = some true := by
  rw [conjunction, ← Kleene.conjoinValue_eq, conjoinValue_eq_true, List.forall_mem_map]

theorem disjunction_value_eq_false :
    (disjunction os).value = some false ↔ ∀ o ∈ os, o.value = some false := by
  induction os with
  | nil => simp [disjunction]
  | cons o os ih =>
      rw [List.forall_mem_cons, ← ih]
      simp only [disjunction, List.map_cons, List.foldr_cons]
      rcases o.value with _ | _ | _ <;>
        rcases (os.map value).foldr Kleene.or (some false) with _ | _ | _ <;> simp [Kleene.or]

theorem negation_value_eq_some {o : Outcome} {b : Bool} :
    o.negation.value = some b ↔ o.value = some !b := by
  rw [negation]
  rcases o.value with _ | _ | _ <;> cases b <;> simp [Kleene.not]

end Outcome

/-- An operator that passes a demand on takes a truth value only where its operands take theirs. -/
theorem Operator.value_of_meaning {op : Operator} {os : List Outcome} {o : Outcome}
    {positive : Bool} (ho : op.meaning os = some o)
    (hc : PolicyGraph.isConjunctive (some op) positive = true) (hv : o.value = some positive) :
    ∀ x ∈ os, x.value = some (positive != decide (op = .not)) := by
  unfold Operator.meaning at ho
  split at ho
  · cases ho
    have hpositive : positive = true := by revert hc; cases positive <;> decide
    rw [hpositive] at hv ⊢
    simpa using Outcome.conjunction_value_eq_true.mp hv
  · cases ho
    have hpositive : positive = false := by revert hc; cases positive <;> decide
    rw [hpositive] at hv ⊢
    simpa using Outcome.disjunction_value_eq_false.mp hv
  · cases ho
    simpa using Outcome.negation_value_eq_some.mp hv
  · cases ho

/-- Whether a comparison takes the truth value it is to have. -/
def Commitment.IsKept (inputs : Inputs) (c : Commitment) : Prop :=
  ∃ o, c.head.meaning inputs = some o ∧ o.value = some c.positive

namespace Rule

variable {inputs : Inputs} {c : Commitment}

mutual

/-- A tree that takes a truth value keeps the commitments that it forces. -/
theorem isKept_of_mem_forced {positive : Bool} {o : Outcome} : ∀ r : Rule,
    r.meaning inputs = some o → o.value = some positive → c ∈ r.forced positive → c.IsKept inputs
  | node h cs, ho, hv, hc => by
      rw [meaning] at ho
      rw [forced] at hc
      split_ifs at hc with hl hconj
      · rw [if_pos hl] at ho
        obtain ⟨os, hos, ho⟩ := Option.bind_eq_some_iff.mp ho
        exact isKept_of_mem_forcedAll cs hos (Operator.value_of_meaning ho hconj hv) hc
      · simp at hc
      · rw [if_neg hl] at ho
        rw [List.mem_singleton.mp hc]
        exact ⟨o, ho, hv⟩

theorem isKept_of_mem_forcedAll {positive : Bool} {os : List Outcome} : ∀ rs : List Rule,
    meanings inputs rs = some os → (∀ o ∈ os, o.value = some positive) →
      c ∈ forcedAll positive rs → c.IsKept inputs
  | [], _, _, hc => by simp [forcedAll] at hc
  | r :: rs, hos, hv, hc => by
      obtain ⟨o, ho, hos⟩ := Option.bind_eq_some_iff.mp hos
      obtain ⟨os, hrest, rfl⟩ := Option.map_eq_some_iff.mp hos
      obtain ⟨hvo, hvos⟩ := List.forall_mem_cons.mp hv
      rcases List.mem_append.mp hc with hc | hc
      · exact isKept_of_mem_forced r ho hvo hc
      · exact isKept_of_mem_forcedAll rs hrest hvos hc

end

end Rule

namespace PolicyGraph

/-- Whether every input for a variable of a graph is a value of the domain of the variable. -/
def AreInDomain (g : PolicyGraph) (inputs : Inputs) : Prop :=
  ∀ n ∈ g.nodes, n.isLeaf = true → ∀ x v given, n.subject = .str x → n.value? = some v →
    Json.lookup x inputs = some given → ∃ s, given.scalar? = some s ∧ s.kind = v.kind.domain

/-- Whether a declared policy evaluates to true. -/
def Holds (g : PolicyGraph) (inputs : Inputs) (policy : String) : Prop :=
  ∃ n e, g.declaredPolicy (.str policy) = .ok n ∧ g.evaluatePolicy inputs n = .ok e ∧
    e.outcome.value = some true

end PolicyGraph

variable {cfg : Settings} {g : PolicyGraph} {p : Plan} {inputs : Inputs}

namespace Commitment

variable {policy other : String} {a b : Commitment}

/-- A kept commitment is met by what is given for its variable. -/
theorem IsKept.exists_meets (h : a.IsKept inputs) (hg : g.IsDrawnFrom cfg p)
    (ha : a.IsPlaced p policy) (hdomain : g.AreInDomain inputs) {k : Constraint}
    (hk : a.constraint? = some k) :
    ∃ given v, Json.lookup a.head.subject inputs = some given ∧ given.scalar? = some v ∧
      k.Meets v := by
  obtain ⟨o, ho, hv⟩ := h
  -- the constraint of the comparison itself, whatever truth value it is to have
  obtain ⟨m, hm, hordinary⟩ :=
    IsPlaced.exists_constraint (a := ⟨a.head, true⟩) ha hg.sound
  obtain ⟨w, hw, hmw⟩ := Option.bind_eq_some_iff.mp hm
  obtain rfl : (⟨a.head.subject, a.head.operator, w⟩ : Constraint) = m := by simpa using hmw
  obtain ⟨r, hr, hra, hl⟩ := ha
  obtain ⟨x, hx, -⟩ := (hg.sound.rules _ hr).confidence
  rw [hra] at hl hx
  have hw : a.head.value = some w := hw
  simp only [Head.meaning, hw, hx, Entries.lookup_eq] at ho
  cases hgiven : Json.lookup a.head.subject inputs with
  | none =>
      rw [hgiven] at ho
      cases ho
      cases hv
  | some given =>
      have hnode := (PolicyGraph.node?_spec (hg.node?_condition hr)).1
      obtain ⟨v, hscalar, hkind⟩ := hdomain _ hnode (by simp [hra, hl]) a.head.subject w given
        (by simp [hra]) (by simp [hra, hw]) hgiven
      obtain ⟨holds, hanswer, hiff⟩ := Constraint.exists_satisfiedBy hordinary hscalar hkind
      refine ⟨given, v, rfl, hscalar, ?_⟩
      rw [hgiven] at ho
      simp only [hanswer, Option.some.injEq] at ho
      obtain rfl : holds = a.positive := by simpa [← ho] using hv
      rw [constraint?, hw, Option.bind_some] at hk
      cases hpositive : a.positive with
      | true =>
          rw [hpositive] at hk hiff
          obtain rfl : (⟨a.head.subject, a.head.operator, w⟩ : Constraint) = k := by simpa using hk
          exact hiff.mp rfl
      | false =>
          rw [hpositive] at hk hiff
          refine (Constraint.meets_negated hordinary ?_ hkind).mpr fun hmeets => ?_
          · simpa [Constraint.negated?] using hk
          · cases hiff.mpr hmeets

theorem Clashes.not_isKept (hclash : a.Clashes b) (hg : g.IsDrawnFrom cfg p)
    (ha : a.IsPlaced p policy) (hb : b.IsPlaced p other) (hdomain : g.AreInDomain inputs) :
    ¬ (a.IsKept inputs ∧ b.IsKept inputs) := by
  rintro ⟨hkeptA, hkeptB⟩
  have hsubject := hclash.subject_eq
  obtain ⟨k, l, hk, hl, hno⟩ := hclash
  obtain ⟨k', hk', hkfit⟩ := ha.exists_constraint hg.sound
  obtain ⟨l', hl', hlfit⟩ := hb.exists_constraint hg.sound
  obtain rfl := Option.some.inj (hk.symm.trans hk')
  obtain rfl := Option.some.inj (hl.symm.trans hl')
  obtain ⟨given, v, hgiven, hv, hmeetsK⟩ := hkeptA.exists_meets hg ha hdomain hk
  obtain ⟨given', w, hgiven', hw, hmeetsL⟩ := hkeptB.exists_meets hg hb hdomain hl
  rw [← hsubject] at hgiven'
  obtain rfl := Option.some.inj (hgiven.symm.trans hgiven')
  obtain rfl := Option.some.inj (hv.symm.trans hw)
  have hsame : k.subject = l.subject := by
    rw [subject_of_constraint hk, subject_of_constraint hl, hsubject]
  have hyes := (Constraint.jointly_iff hkfit hlfit hsame
    (hmeetsK.kind_eq.symm.trans hmeetsL.kind_eq)).mpr ⟨v, hmeetsK, hmeetsL⟩
  rw [hno] at hyes
  cases hyes

end Commitment

namespace PolicyGraph

/-- A policy is concluded to hold only from parts that hold. -/
theorem value_of_concludePolicy {n : Node} {es : List Evaluated} {e : Evaluated}
    (h : g.concludePolicy n es = .ok e) (hv : e.outcome.value = some true) :
    ∀ x ∈ es, x.outcome.value = some true := by
  unfold concludePolicy at h
  split at h
  · cases h
    simpa using hv
  · simp
  · next x xs _ =>
    obtain ⟨clause, -, h⟩ := Attempt.bind_eq_ok.mp h
    obtain ⟨f, -, h⟩ := Attempt.bind_eq_ok.mp h
    cases h
    have hv : (Outcome.conjunction (x.outcome :: xs.map Evaluated.outcome)).value = some true := by
      rw [← Outcome.conjoin_eq]
      exact hv
    rw [← List.map_cons, Outcome.conjunction_value_eq_true, List.forall_mem_map] at hv
    exact hv

/-- A policy that holds keeps what its trees force. -/
theorem IsDrawnFrom.isKept_of_holds (h : g.IsDrawnFrom cfg p) {d : Document}
    (hd : d ∈ p.documents) (hholds : g.Holds inputs d.policy) {c : Commitment}
    (hc : c ∈ p.forcedOf d.policy) : c.IsKept inputs := by
  obtain ⟨n, e, hn, he, hv⟩ := hholds
  obtain ⟨d', hd', hpolicy, rfl⟩ := h.exists_document hn
  obtain rfl := Plan.document_eq h.sound hd' hd hpolicy
  rw [evaluatePolicy, evaluatePolicyTo_succ, Plan.policyNode_policy] at he
  obtain ⟨-, -, he⟩ := Attempt.bind_eq_ok.mp he
  obtain ⟨own, hown, he⟩ := Attempt.bind_eq_ok.mp he
  obtain ⟨names, -, he⟩ := Attempt.bind_eq_ok.mp he
  obtain ⟨required, -, he⟩ := Attempt.bind_eq_ok.mp he
  have hroots :
      Rule.meanings inputs (p.rootsOf d'.policy) = some (own.map Evaluated.outcome) := by
    rw [← evaluateRoots_outcomes h inputs hd, hown]
    rfl
  have hall := value_of_concludePolicy he hv
  refine Rule.isKept_of_mem_forcedAll _ hroots (fun o ho => ?_) hc
  obtain ⟨x, hx, rfl⟩ := List.mem_map.mp ho
  exact hall x (List.mem_append_left _ hx)

theorem value_of_statusOf {settings : Settings} {o : Outcome}
    (h : statusOf settings o = .eligible) : o.value = some true := by
  unfold statusOf at h
  split at h
  · cases h
  · cases h
  · next hvalue => exact hvalue

/-- An applicant is eligible only for a policy that holds. -/
theorem holds_of_answer {settings : Settings} {policy : String} {v : Verdict}
    (h : (g.answer settings ⟨policy, inputs⟩).outcome = .ok v) (hv : v.status = .eligible) :
    g.Holds inputs policy := by
  rw [answer, run_outcome] at h
  obtain ⟨n, hn, h⟩ := Attempt.bind_eq_ok.mp h
  obtain ⟨e, he, h⟩ := Attempt.bind_eq_ok.mp h
  cases h
  exact ⟨n, e, hn, he, value_of_statusOf hv⟩

end PolicyGraph

end Eligibility
