import Eligibility.Proofs.Evaluations
import Eligibility.Proofs.Necessity
/-!
# The values of conditions

**Values.**  The value of a node is the truth value of its evaluation, if that gives one.
In a compiled graph the nodes of conditions have the values that their rules mean, and
so the value does not depend on the policy in whose evaluation the node is met.

**Literals.**  A literal is kept where its comparison has the truth value that the literal
gives it.  The literals that a node needs to take a truth value are collected by
descending the graph with a demand; the demand turns at every negation and stops
where an operator leaves its operands a choice.

**Results.**
* `IsDrawnFrom.hasValue_iff`: the value of a condition is that of the meaning of its rule.
* `keeps_of_evaluation`: a condition that has a truth value keeps all literals it needs
  for that value, and a policy that holds keeps its requirements.
-/

namespace Eligibility
namespace PolicyGraph

/-- Whether a node is evaluated to a truth value, or to none. -/
def HasValue (g : PolicyGraph) (inputs : Inputs) (n : Node) (v : Option Bool) : Prop :=
  ∃ e, g.evaluateRule inputs g.depthBound n = .ok e ∧ e.outcome.value = v

/-- Whether the comparison of a literal is evaluated to the truth value that the literal gives
it. -/
def Keeps (g : PolicyGraph) (inputs : Inputs) (l : Literal) : Prop :=
  l.node.isLeaf = true ∧ g.HasValue inputs l.node (some l.positive)

section Values

variable {cfg : Settings} {g : PolicyGraph} {p : Plan} {inputs : Inputs}

/-- The value of a condition is that of the meaning of its rule. -/
theorem IsDrawnFrom.hasValue_iff (h : g.IsDrawnFrom cfg p) {policy : String} {r : Rule}
    (hr : (policy, r) ∈ p.placed) {v : Option Bool} :
    g.HasValue inputs (Plan.conditionNode cfg policy r.head) v ↔
      ∃ o, r.meaning inputs = some o ∧ o.value = v := by
  rw [← evaluateRule_outcome h inputs hr (h.hasTreesOf.depth_le_depthBound hr), HasValue]
  cases g.evaluateRule inputs g.depthBound (Plan.conditionNode cfg policy r.head) <;> simp

/-- A condition has at most one value. -/
theorem HasValue.unique {n : Node} {v w : Option Bool} (hv : g.HasValue inputs n v)
    (hw : g.HasValue inputs n w) : v = w := by
  obtain ⟨e, he, rfl⟩ := hv
  obtain ⟨f, hf, rfl⟩ := hw
  rw [Except.ok.inj (he.symm.trans hf)]

/-- The literal of a commitment is kept where the commitment is. -/
theorem IsDrawnFrom.keeps_literal (h : g.IsDrawnFrom cfg p) {policy : String} {c : Commitment}
    (hc : c.IsPlaced p policy) (hkept : c.IsKept inputs) :
    g.Keeps inputs (c.literal cfg policy) := by
  obtain ⟨⟨head, cs⟩, hr, hhead, hl⟩ := hc
  rw [Rule.head_node] at hhead hl
  have hmeaning : (Rule.node head cs).meaning inputs = c.head.meaning inputs := by
    rw [Rule.meaning_of_comparison hl, hhead]
  refine ⟨by simp [Commitment.literal, ← hhead, hl], ?_⟩
  rw [Commitment.literal, ← hhead]
  exact (h.hasValue_iff hr).mpr (hmeaning ▸ hkept)

/-- The literals that a condition needs for a truth value are kept where it has the value. -/
theorem IsDrawnFrom.keeps_of_hasValue (h : g.IsDrawnFrom cfg p) {policy : String} {r : Rule}
    (hr : (policy, r) ∈ p.placed) {b : Bool}
    (hv : g.HasValue inputs (Plan.conditionNode cfg policy r.head) (some b)) {c : Commitment}
    (hc : c ∈ r.forced b) : g.Keeps inputs (c.literal cfg policy) := by
  obtain ⟨o, ho, hvalue⟩ := (h.hasValue_iff hr).mp hv
  obtain ⟨d, hd, rfl, t, ht, hrt⟩ := Plan.mem_placed.mp hr
  have hwalk : r.walk ⊆ Rule.walkAll (p.rootsOf d.policy) := fun u hu =>
    Rule.mem_walkAll.mpr ⟨t, ht, (Rule.walk_sublist_of_mem t hrt).subset hu⟩
  exact h.keeps_literal (((Rule.isOf_of_mem_forced r hc).mono hwalk).isPlaced hd)
    (Rule.isKept_of_mem_forced r ho hvalue hc)

/-- A condition that is evaluated to a truth value keeps every literal that it needs for that value,
and a policy that holds keeps every literal that it requires. -/
theorem keeps_of_evaluation (hg : g.IsCompiled cfg) (inputs : Inputs) :
    (∀ n ∈ g.nodes, n.kind = .condition → ∀ b : Bool, g.HasValue inputs n (some b) →
      ∃ ls, g.mustHold n b = .ok ls ∧ ∀ l ∈ ls, g.Keeps inputs l) ∧
    ∀ policy : String, g.Holds inputs policy →
      ∃ ls, g.requirements (.str policy) = .ok ls ∧ ∀ l ∈ ls, g.Keeps inputs l := by
  obtain ⟨p, h⟩ := hg.exists_isDrawnFrom
  refine ⟨fun n hn hkind b hv => ?_, fun policy hholds => ?_⟩
  · obtain ⟨⟨policy, r⟩, hr, rfl⟩ := h.eq_of_condition hn hkind
    exact ⟨_, h.hasTreesOf.mustHold_eq hr b,
      List.forall_mem_map.mpr fun c hc => h.keeps_of_hasValue hr hv hc⟩
  · have ⟨_, _, hn, _⟩ := hholds
    obtain ⟨d, hd, rfl, -⟩ := h.exists_document hn
    exact ⟨_, h.hasTreesOf.requirements_eq hd, List.forall_mem_map.mpr fun c hc =>
      h.keeps_literal (Plan.isPlaced_of_mem_forcedOf hd hc) (h.isKept_of_holds hd hholds hc)⟩

end Values

section Permits

/-- A grown-up at home who is not banned holds the permit, and its two literals are kept. -/
theorem keeps_of_evaluation_permit : ∃ (g : PolicyGraph) (inputs : Inputs) (ls : List Literal),
    g.IsCompiled .standard ∧ g.Holds inputs "permit" ∧ g.requirements (.str "permit") = .ok ls ∧
      ls.map (fun l => (l.node.subject, l.positive)) =
        [(.str "age", false), (.str "status", false)] ∧
      ∀ l ∈ ls, g.Keeps inputs l := by
  obtain ⟨g, hvalid, hbuild, h⟩ := exists_permit
  have hg : g.IsCompiled .standard := ⟨permit, hvalid, hbuild⟩
  let fs : Inputs := [("age", .int 30), ("status", .str "ok"), ("residence", .str "here")]
  obtain ⟨v, o, hv, ho, hstatus, -⟩ := h.exists_verdict_permit hvalid hbuild fs rfl rfl
    (by simpa [Rule.InRange, fs] using by decide +kernel)
  have hvalue : (permit.meaning fs "permit").map (statusOf .standard) = some .eligible := by
    decide +kernel
  rw [ho, Option.map_some, Option.some.injEq] at hvalue
  rw [evaluate_eq_answer .standard g rfl rfl] at hv
  have hholds : g.Holds fs "permit" := holds_of_answer hv (hstatus.trans hvalue)
  obtain ⟨ls, hls, hkept⟩ := (keeps_of_evaluation hg fs).2 "permit" hholds
  refine ⟨g, fs, ls, hg, hholds, hls, ?_, hkept⟩
  have hd : { policy := "permit", clauses := [{ id := "c" }], prerequisites := ["home"] } ∈
      permitPlan.documents := List.mem_cons_self
  obtain rfl := Except.ok.inj ((h.hasTreesOf.requirements_eq hd).symm.trans hls)
  rfl

end Permits

end PolicyGraph
end Eligibility
