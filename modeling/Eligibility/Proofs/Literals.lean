import Eligibility.Conflict.Candidate
import Eligibility.Proofs.CompiledGraph
import Eligibility.Proofs.Meaning
/-!
# Literals of compiled graphs

**Fit.**  A constraint fits where its operator is a comparison that can have its
operand.  Questions about constraints that fit have answers.

**Results.**
* `exists_jointly`, `exists_implies`: questions about fitting conditions have answers.
* `IsComparison.exists_condition`: what a literal on a comparison says fits.
* `standard_fits`: the entries that are used unless others are given fit.
-/

namespace Eligibility

namespace Constraint

/-- Whether the operator is a comparison that can have the operand. -/
structure IsFitting (c : Constraint) : Prop where
  comparison : c.operator.isLogical = false
  fits : Head.fits c.operator c.value.kind = true

theorem exists_numbersJointly {o p : Operator} {x y : Number} (ho : o.isLogical = false)
    (hfo : Head.fits o .numeric = true) (hp : p.isLogical = false)
    (hfp : Head.fits p .numeric = true) : ∃ b, numbersJointly o x p y = some b := by
  unfold numbersJointly
  by_cases hon : o = .neq
  · by_cases hpn : p = .neq
    · exact ⟨true, by rw [if_pos ⟨hon, hpn⟩]⟩
    · obtain ⟨i, hi⟩ := Rule.exists_intervalOf hp hfp hpn y
      exact ⟨_, by rw [if_neg (fun h => hpn h.2), if_pos hon, hi, Option.map_some]⟩
  · obtain ⟨i, hi⟩ := Rule.exists_intervalOf ho hfo hon x
    rw [if_neg (fun h => hon h.1), if_neg hon, hi]
    by_cases hpn : p = .neq
    · exact ⟨_, by rw [if_pos hpn, Option.map_some]⟩
    · obtain ⟨j, hj⟩ := Rule.exists_intervalOf hp hfp hpn y
      exact ⟨_, by rw [if_neg hpn, hj]⟩

theorem exists_numbersImply {o p : Operator} {x y : Number} (ho : o.isLogical = false)
    (hfo : Head.fits o .numeric = true) (hp : p.isLogical = false)
    (hfp : Head.fits p .numeric = true) : ∃ b, numbersImply o x p y = some b := by
  unfold numbersImply
  by_cases hon : o = .neq
  · by_cases hpn : p = .neq
    · exact ⟨_, by rw [if_pos hpn, if_pos hon]⟩
    · exact ⟨_, by rw [if_neg hpn, if_pos hon]⟩
  · obtain ⟨i, hi⟩ := Rule.exists_intervalOf ho hfo hon x
    rw [hi]
    by_cases hpn : p = .neq
    · exact ⟨_, by rw [if_pos hpn, if_neg hon, Option.map_some]⟩
    · obtain ⟨j, hj⟩ := Rule.exists_intervalOf hp hfp hpn y
      exact ⟨_, by rw [if_neg hpn, if_neg hon, hj]⟩

/-- Whether two fitting constraints can hold together is decided. -/
theorem exists_jointly {a b : Constraint} (ha : a.IsFitting) (hb : b.IsFitting) :
    ∃ x, jointly a b = some x := by
  obtain ⟨s, o, v⟩ := a
  obtain ⟨t, p, w⟩ := b
  unfold jointly
  split
  · exact ⟨true, rfl⟩
  · cases v with
    | number x =>
        cases w with
        | number y => exact exists_numbersJointly ha.comparison ha.fits hb.comparison hb.fits
        | _ => exact ⟨true, rfl⟩
    | flag x => cases w <;> exact ⟨_, rfl⟩
    | text x => cases w <;> exact ⟨_, rfl⟩
    | texts x => cases w <;> exact ⟨_, rfl⟩

/-- Whether one fitting constraint implies another one is decided. -/
theorem exists_implies {a b : Constraint} (ha : a.IsFitting) (hb : b.IsFitting) :
    ∃ x, implies a b = some x := by
  obtain ⟨s, o, v⟩ := a
  obtain ⟨t, p, w⟩ := b
  unfold implies
  split
  · exact ⟨false, rfl⟩
  · cases v with
    | number x =>
        cases w with
        | number y => exact exists_numbersImply ha.comparison ha.fits hb.comparison hb.fits
        | _ => exact ⟨false, rfl⟩
    | flag x => cases w <;> exact ⟨_, rfl⟩
    | text x => cases w <;> exact ⟨_, rfl⟩
    | texts x => cases w <;> exact ⟨_, rfl⟩

end Constraint

namespace Impossibility

/-- Whether both constraints of an entry fit. -/
structure IsFitting (i : Impossibility) : Prop where
  first : i.first.IsFitting
  second : i.second.IsFitting

/-- The entries that are used unless others are given fit. -/
theorem standard_fits : ∀ i ∈ standard, i.IsFitting := by
  intro i hi
  simp only [standard, List.mem_cons, List.not_mem_nil, or_false] at hi
  rcases hi with rfl | rfl | rfl | rfl | rfl | rfl | rfl | rfl | rfl | rfl <;>
    exact ⟨⟨rfl, rfl⟩, ⟨rfl, rfl⟩⟩

end Impossibility

namespace Condition

/-- Whether a condition is that of a fitting constraint. -/
def IsFitting (c : Condition) : Prop := ∃ k : Constraint, k.IsFitting ∧ c = ofConstraint k

theorem exists_jointly {c d : Condition} (hc : c.IsFitting) (hd : d.IsFitting) :
    ∃ b, c.jointly d = .ok b := by
  obtain ⟨k, hk, rfl⟩ := hc
  obtain ⟨l, hl, rfl⟩ := hd
  unfold jointly
  split
  · exact ⟨true, rfl⟩
  · have hk' : (constraint (ofConstraint k) k.value).IsFitting := ⟨hk.comparison, hk.fits⟩
    have hl' : (constraint (ofConstraint l) l.value).IsFitting := ⟨hl.comparison, hl.fits⟩
    obtain ⟨b, hb⟩ := Constraint.exists_jointly hk' hl'
    exact ⟨b, congrArg answer hb⟩

theorem exists_implies {c d : Condition} (hc : c.IsFitting) (hd : d.IsFitting) :
    ∃ b, c.implies d = .ok b := by
  obtain ⟨k, hk, rfl⟩ := hc
  obtain ⟨l, hl, rfl⟩ := hd
  unfold implies
  split
  · exact ⟨false, rfl⟩
  · have hk' : (constraint (ofConstraint k) k.value).IsFitting := ⟨hk.comparison, hk.fits⟩
    have hl' : (constraint (ofConstraint l) l.value).IsFitting := ⟨hl.comparison, hl.fits⟩
    obtain ⟨b, hb⟩ := Constraint.exists_implies hk' hl'
    exact ⟨b, congrArg answer hb⟩

end Condition

namespace Operator

/-- The complement of a comparison is a comparison that can have the same operands. -/
theorem exists_negated? {o : Operator} (ho : o.isLogical = false) :
    ∃ p, o.negated? = some p ∧ p.isLogical = false ∧ ∀ k, Head.fits o k = Head.fits p k := by
  cases o with
  | and => cases ho
  | or => cases ho
  | not => cases ho
  | _ => exact ⟨_, rfl, rfl, fun k => by cases k <;> rfl⟩

end Operator

namespace Node

/-- Whether a node is that of a comparison that can have its operand. -/
def IsComparison (n : Node) : Prop :=
  ∃ (cfg : Settings) (policy : String) (h : Head), h.IsSound 0 ∧ h.operator.isLogical = false ∧
    n = Plan.conditionNode cfg policy h

variable {l : Literal}

/-- A literal on a comparison says what its node does, or the opposite of it. -/
theorem IsComparison.exists_constraint (hl : l.node.IsComparison) :
    ∃ (c : Constraint) (o : Operator), c.IsFitting ∧
      (∀ x, c.value = .number x → x.isFinite = true) ∧
      l.node.operator? = .ok (some c.operator) ∧ l.node.value? = some c.value ∧
      (if l.positive then some c.operator else c.operator.negated?) = some o ∧
      l.condition = .ok (.ofConstraint { c with operator := o }) := by
  obtain ⟨cfg, policy, h, hsound, hcomparison, hnode⟩ := hl
  obtain ⟨-, v, hv, hfits, hfinite⟩ := hsound.comparison hcomparison
  obtain ⟨p, hneg, -, -⟩ := Operator.exists_negated? hcomparison
  have hoperator : l.node.operator? = .ok (some h.operator) := by
    rw [hnode, Plan.conditionNode_operator?]
  have hvalue : l.node.value? = some v := by rw [hnode, Plan.conditionNode_value?, hv]
  have hsubject : l.node.subject = .str h.subject := by rw [hnode, Plan.conditionNode_subject]
  refine ⟨⟨h.subject, h.operator, v⟩, if l.positive then h.operator else p,
    ⟨hcomparison, hfits⟩, hfinite, hoperator, hvalue, ?_, ?_⟩
  · cases l.positive <;> simp [hneg]
  · rw [Literal.condition, Literal.operator?, hoperator, hvalue, hsubject]
    cases l.positive <;> simp [hneg, Condition.ofConstraint]

/-- What a literal on a comparison says fits; the operand is that of its rule. -/
theorem IsComparison.exists_condition (hl : l.node.IsComparison) :
    ∃ k : Constraint, k.IsFitting ∧ l.condition = .ok (.ofConstraint k) ∧
      ∀ x, k.value = .number x → x.isFinite = true := by
  obtain ⟨c, o, hc, hfinite, -, -, ho, hcondition⟩ := hl.exists_constraint
  refine ⟨{ c with operator := o }, ?_, hcondition, hfinite⟩
  split at ho
  · exact Option.some.inj ho ▸ hc
  · obtain ⟨p, hneg, hp, hsame⟩ := Operator.exists_negated? hc.comparison
    obtain rfl := Option.some.inj (hneg.symm.trans ho)
    exact ⟨hp, (hsame _).symm.trans hc.fits⟩

theorem IsComparison.isFitting (hl : l.node.IsComparison) {c : Condition}
    (hc : l.condition = .ok c) : c.IsFitting := by
  obtain ⟨k, hk, hcondition, -⟩ := hl.exists_condition
  exact ⟨k, hk, Except.ok.inj (hc.symm.trans hcondition)⟩

theorem IsComparison.exists_describe (hl : l.node.IsComparison) : ∃ s, l.describe = .ok s := by
  obtain ⟨k, -, hcondition, -⟩ := hl.exists_condition
  exact ⟨k.describe, by rw [Literal.describe, hcondition]; rfl⟩

theorem IsComparison.exists_evidence (hl : l.node.IsComparison) : ∃ j, l.evidence = .ok j := by
  obtain ⟨s, hs⟩ := hl.exists_describe
  exact ⟨_, by rw [Literal.evidence, hs, Attempt.map_ok]⟩

theorem IsComparison.exists_id {n : Node} (hn : n.IsComparison) : ∃ s, n.id = .str s := by
  obtain ⟨cfg, policy, h, -, -, rfl⟩ := hn
  exact ⟨_, rfl⟩

theorem IsComparison.exists_clause (hl : l.node.IsComparison) : ∃ s, l.clause = .str s := by
  obtain ⟨cfg, policy, h, -, -, hnode⟩ := hl
  exact ⟨h.clause, by rw [Literal.clause, hnode, Plan.conditionNode_citedClause]⟩

theorem IsComparison.exists_subject {n : Node} (hn : n.IsComparison) :
    ∃ s, n.subject = .str s := by
  obtain ⟨cfg, policy, h, -, -, rfl⟩ := hn
  exact ⟨h.subject, Plan.conditionNode_subject cfg policy h⟩

end Node

end Eligibility
