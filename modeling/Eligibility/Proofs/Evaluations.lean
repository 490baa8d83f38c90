import Eligibility.Proofs.Clashes
import Eligibility.Proofs.MoreInputs
/-!
# Evaluations that give a result

**Trees.**  In a compiled graph the evaluation of a condition is made of evaluations of the
rules below it.  What is to hold of all of them is proved by induction on the tree, with
the depth that was given to the evaluation out of sight.

**Policies.**  The evaluation of a policy is made of evaluations of its trees and of the
policies it requires, on a stack that has grown by the policy.  A policy that is
declared nowhere is evaluated on its own.

**Results.**
* `IsDrawnFrom.induction_evaluateRule`: induction on evaluations of conditions.
* `IsDrawnFrom.exists_parts`: what the evaluation of a policy is made of.
* `IsDrawnFrom.induction_evaluatePolicyTo`: induction on evaluations of policies.
-/

namespace Eligibility
namespace PolicyGraph

variable {cfg : Settings} {g : PolicyGraph} {p : Plan} {inputs : Inputs}

section Trees

/-- The operands of a rule are the evaluations of the rules below it, negated where the rule is a
negation. -/
theorem IsDrawnFrom.forall₂_operands (h : g.IsDrawnFrom cfg p) {policy : String} {r : Rule}
    (hr : (policy, r) ∈ p.placed) {fuel : Nat} {bs : List Branch}
    (hbs : g.ruleChildren (Plan.conditionNode cfg policy r.head).id = .ok bs)
    {es : List (Evaluated × Bool)}
    (hes : bs.mapM (fun b =>
      (g.evaluateRule inputs fuel b.node).map fun e => (e, b.edge.isNegated)) = .ok es) :
    List.Forall₂ (fun c x =>
      g.evaluateRule inputs fuel (Plan.conditionNode cfg policy c.head) = .ok x.1 ∧
        x.2 = decide (r.operator = .not)) r.children es := by
  obtain ⟨bs', hbs', hall⟩ := h.ruleChildren_condition hr
  obtain rfl : bs' = bs := Except.ok.inj (hbs'.symm.trans hbs)
  refine Attempt.forall₂_join hall.flip (Attempt.mapM_eq_ok.mp hes) fun b c x hb hx => ?_
  obtain ⟨e, he, rfl⟩ := Attempt.map_eq_ok.mp hx
  exact ⟨hb.1 ▸ he, hb.2⟩

/-- Induction on the evaluations of conditions within a depth that suffices for their trees. -/
theorem IsDrawnFrom.induction_evaluateRule (h : g.IsDrawnFrom cfg p) {policy : String}
    {motive : Rule → Evaluated → Prop}
    (comparison : ∀ {r e}, (policy, r) ∈ p.placed → r.head.operator.isLogical = false →
      r.children = [] → r.meaning inputs = some e.outcome →
      evaluateLeaf inputs (Plan.conditionNode cfg policy r.head) = .ok e → motive r e)
    (combination : ∀ {r e es}, (policy, r) ∈ p.placed → r.head.operator.isLogical = true →
      List.Forall₂ (fun c x => motive c x.1) r.children es →
      r.meaning inputs = some e.outcome →
      concludeRule (Plan.conditionNode cfg policy r.head) es = .ok e → motive r e)
    {fuel : Nat} {r : Rule} (hr : (policy, r) ∈ p.placed) (hfuel : r.depth ≤ fuel)
    {e : Evaluated}
    (he : g.evaluateRule inputs fuel (Plan.conditionNode cfg policy r.head) = .ok e) :
    motive r e := by
  induction fuel generalizing r e with
  | zero => cases he
  | succ fuel ih =>
      have hmeaning : r.meaning inputs = some e.outcome := by
        rw [← evaluateRule_outcome h inputs hr hfuel, he]
        rfl
      rw [evaluateRule, Plan.conditionNode_isLeaf] at he
      split at he
      next hl =>
        have hl : r.head.operator.isLogical = false := by simpa using hl
        have hnone := List.eq_nil_of_length_eq_zero ((h.sound.rules _ hr).comparison hl).1
        exact comparison hr hl hnone hmeaning he
      next hl =>
        obtain ⟨bs, hbs, he⟩ := Attempt.bind_eq_ok.mp he
        obtain ⟨es, hes, he⟩ := Attempt.bind_eq_ok.mp he
        refine combination hr (by simpa using hl) ?_ hmeaning he
        refine ((List.forall₂_and_left (p := fun c => c ∈ r.children) _ es).mpr
          ⟨fun _ hc => hc, h.forall₂_operands hr hbs hes⟩).imp ?_
        exact fun c x hx =>
          ih (Plan.placed_child hr hx.1) (depth_le_of_mem_children hfuel hx.1) hx.2.1

/-- The top-level rules of a policy are evaluated one by one. -/
theorem IsDrawnFrom.forall₂_roots (h : g.IsDrawnFrom cfg p) {d : Document} (hd : d ∈ p.documents)
    {own : List Evaluated} (hown : g.evaluateRoots inputs (.str d.policy) = .ok own) :
    List.Forall₂ (fun r x => (d.policy, r) ∈ p.placed ∧
      g.evaluateRule inputs g.depthBound (Plan.conditionNode cfg d.policy r.head) = .ok x)
      (p.rootsOf d.policy) own := by
  obtain ⟨bs, hbs, hall⟩ := h.policyRoots_policy hd
  rw [evaluateRoots, hbs, Attempt.ok_bind] at hown
  refine (List.forall₂_and_left _ own).mpr ⟨fun r hr => Plan.placed_root hd hr, ?_⟩
  refine Attempt.forall₂_join hall.flip (Attempt.mapM_eq_ok.mp hown) fun b r x hb hx => ?_
  rwa [← hb.1]

end Trees

section Policies

/-- What is evaluated for a policy that a document requires: what is to hold of evaluations holds
of it where the policy is declared, and otherwise it is what is known of the policy. -/
def GivesRequired (g : PolicyGraph) (p : Plan) (holds : Document → Evaluated → Prop)
    (requiredBy : Document) (t : String) (x : Evaluated) : Prop :=
  t ∈ requiredBy.prerequisites ∧
    ((∃ d ∈ p.documents, d.policy = t ∧ holds d x) ∨
      t ∉ p.documents.map Document.policy ∧
        g.evaluateExternal (Plan.externalNode t) (.str requiredBy.policy) = .ok x)

/-- What the evaluation of a declared policy is made of. -/
theorem IsDrawnFrom.exists_parts (h : g.IsDrawnFrom cfg p) {fuel : Nat} {stack : List String}
    {d : Document} (hd : d ∈ p.documents) {e : Evaluated}
    (he : g.evaluatePolicyTo inputs (fuel + 1) (stack.map .str)
      (Plan.policyNode cfg d (p.rootsOf d.policy)) = .ok e) :
    d.policy ∉ stack ∧ g.precheck (.str d.policy) = .ok () ∧
      ∃ own required, g.evaluateRoots inputs (.str d.policy) = .ok own ∧
        List.Forall₂ (g.GivesRequired p (fun d' x => g.evaluatePolicyTo inputs fuel
            ((stack ++ [d.policy]).map .str) (Plan.policyNode cfg d' (p.rootsOf d'.policy)) =
              .ok x) d) (RuleSet.firstTexts [] d.prerequisites) required ∧
        g.concludePolicy (Plan.policyNode cfg d (p.rootsOf d.policy)) (own ++ required) = .ok e := by
  rw [evaluatePolicyTo_succ, Plan.policyNode_policy, Json.among_strs] at he
  by_cases hmem : d.policy ∈ stack
  · rw [if_pos (by simpa using hmem)] at he
    cases hc : g.circularFault (stack.map .str) (.str d.policy) <;> rw [hc] at he <;> cases he
  rw [if_neg (by simpa using hmem)] at he
  obtain ⟨_, hprecheck, he⟩ := Attempt.bind_eq_ok.mp he
  obtain ⟨own, hown, he⟩ := Attempt.bind_eq_ok.mp he
  rw [h.requiredPolicies_policy hd, Attempt.ok_bind] at he
  obtain ⟨required, hrequired, he⟩ := Attempt.bind_eq_ok.mp he
  refine ⟨hmem, hprecheck, own, required, hown, ?_, he⟩
  have hitems := Attempt.mapM_eq_ok.mp hrequired
  rw [List.forall₂_map_left_iff] at hitems
  refine ((List.forall₂_and_left (p := fun t => t ∈ d.prerequisites) _ required).mpr
    ⟨fun t ht => (Plan.mem_firstTexts.mp ht).1, hitems⟩).imp ?_
  rintro t x ⟨ht, hx⟩
  unfold evaluateRequired at hx
  rcases h.node?_required hd ht with ⟨d', hd', rfl, hn⟩ | ⟨hundeclared, hn⟩
  · rw [Node.policyId_str, node_eq_ok.mpr hn, Attempt.ok_bind, Plan.policyNode_isExternal,
      if_neg (by simp)] at hx
    exact ⟨ht, .inl ⟨d', hd', rfl, by rwa [List.map_append]⟩⟩
  · rw [Node.policyId_str, node_eq_ok.mpr hn, Attempt.ok_bind, Plan.externalNode_isExternal,
      if_pos rfl] at hx
    exact ⟨ht, .inr ⟨hundeclared, hx⟩⟩

/-- Induction on the evaluations of declared policies. -/
theorem IsDrawnFrom.induction_evaluatePolicyTo (h : g.IsDrawnFrom cfg p)
    {motive : List String → Document → Evaluated → Prop}
    (step : ∀ {stack d own required e}, d ∈ p.documents → d.policy ∉ stack →
      g.evaluateRoots inputs (.str d.policy) = .ok own →
      List.Forall₂ (g.GivesRequired p (motive (stack ++ [d.policy])) d)
        (RuleSet.firstTexts [] d.prerequisites) required →
      g.concludePolicy (Plan.policyNode cfg d (p.rootsOf d.policy)) (own ++ required) = .ok e →
      motive stack d e)
    {fuel : Nat} {stack : List String} {d : Document} (hd : d ∈ p.documents) {e : Evaluated}
    (he : g.evaluatePolicyTo inputs fuel (stack.map .str)
      (Plan.policyNode cfg d (p.rootsOf d.policy)) = .ok e) : motive stack d e := by
  induction fuel generalizing stack d e with
  | zero => cases he
  | succ fuel ih =>
      obtain ⟨hmem, -, own, required, hown, hrequired, he⟩ := h.exists_parts hd he
      refine step hd hmem hown (hrequired.imp fun t x hx => ⟨hx.1, hx.2.imp_left ?_⟩) he
      exact fun ⟨d', hd', hpolicy, hx⟩ => ⟨d', hd', hpolicy, ih hd' hx⟩

end Policies

section Permits

/-- A permit for those who are neither under age nor banned, which requires a home. -/
def permit : RuleSet where
  rules := [
    .node { id := "n", subject := "x", operator := .not, clause := "c",
            confidence := some Number.one } [
      .node { id := "o", subject := "x", operator := .or, clause := "c",
              confidence := some Number.one } [
        .node { id := "a", subject := "age", operator := .lt, value := some (.number (.finite 18)),
                clause := "c", confidence := some Number.one } [],
        .node (statusHead "b" .eq "banned") []]],
    .node { id := "r", subject := "residence", operator := .eq, value := some (.text "here"),
            clause := "d", confidence := some Number.one } []]
  documents := [{ policy := "permit", clauses := [{ id := "c" }], prerequisites := ["home"] },
    { policy := "home", clauses := [{ id := "d" }] }]

def permitPlan : Plan := ⟨permit.documents, ["permit", "home"].zip permit.rules⟩

theorem exists_permit : ∃ g : PolicyGraph, permit.validate .standard = .ok permit ∧
    (permit.build .standard).outcome = .ok g ∧ g.IsDrawnFrom .standard permitPlan :=
  exists_build (by decide +kernel) rfl (by decide +kernel)

/-- Neither the permit nor the home contradicts itself. -/
theorem IsDrawnFrom.precheck_permit {g : PolicyGraph} (h : g.IsDrawnFrom .standard permitPlan)
    {a : String} (ha : g.IsInternal a) : g.precheck (.str a) = .ok () := by
  obtain ⟨d, hd, rfl⟩ := List.mem_map.mp (h.isInternal_iff.mp ha)
  have hscenes : ∀ d ∈ permitPlan.documents, ∀ s ∈ permitPlan.scenesOf d.policy,
      ∀ c ∈ s.context, s.leaf.head.subject ≠ c.head.subject := by
    decide +kernel
  rcases h.precheck_cases hd with ⟨hok, -⟩ | ⟨s, hs, c, hc, hclash, -⟩
  · exact hok
  · exact absurd hclash.subject_eq (hscenes d hd s hs c hc)

/-- The permit requires a home, and the home nothing. -/
theorem IsDrawnFrom.not_isCircular_permit {g : PolicyGraph}
    (h : g.IsDrawnFrom .standard permitPlan) (a : String) : ¬ g.IsCircular a := by
  have hrequires : ∀ a b, g.Requires a b → a = "permit" ∧ b = "home" := by
    intro a b hab
    obtain ⟨d, hd, rfl, hb⟩ := h.requires_iff.mp hab
    have hall : ∀ d ∈ permitPlan.documents, ∀ b ∈ d.prerequisites,
        d.policy = "permit" ∧ b = "home" := by decide +kernel
    exact hall d hd b hb
  intro hcircular
  obtain ⟨b, ⟨-, -, hab⟩, hba⟩ := Relation.TransGen.head'_iff.mp hcircular
  obtain ⟨rfl, rfl⟩ := hrequires a b hab
  rcases Relation.ReflTransGen.cases_head hba with he | ⟨c, ⟨-, -, hc⟩, -⟩
  · exact absurd he (by decide)
  · exact absurd (hrequires _ _ hc).1 (by decide)

/-- The permit gets the verdict of its meaning on inputs in range. -/
theorem IsDrawnFrom.exists_verdict_permit {g : PolicyGraph}
    (h : g.IsDrawnFrom .standard permitPlan) (hvalid : permit.validate .standard = .ok permit)
    (hg : (permit.build .standard).outcome = .ok g) (fs : Inputs)
    (hquery : Query.check (.str "permit") (Entries.ofFields fs) = .ok ⟨"permit", fs⟩)
    (hmapping : Fault.mappingOrEmpty (.obj fs) = .ok (Entries.ofFields fs))
    (hin : Rule.InRange fs) :
    ∃ v o, (g.evaluate .standard (.str "permit") (.obj fs)).outcome = .ok v ∧
      permit.meaning fs "permit" = some o ∧ v.status = statusOf .standard o ∧
      v.requirements = if o.value.isNone then some o.pending.members else none := by
  have hpermit : g.IsInternal "permit" := h.isInternal_iff.mpr List.mem_cons_self
  rcases h.evaluate_cases (fun _ => h.precheck_permit) hmapping hquery hin hpermit with
    ⟨v, hv, -⟩ | ⟨cycle, clauses, -, hcircle⟩
  · obtain ⟨q, hq, hverdict⟩ := verdict_of_evaluate hmapping hv
    obtain rfl : (⟨"permit", fs⟩ : Query) = q := by simpa [hquery] using hq
    obtain ⟨-, -, o, ho, hstatus, -, hrequirements⟩ := meaning_of_verdict hvalid hg hverdict
    exact ⟨v, o, hv, ho, hstatus, hrequirements⟩
  · obtain ⟨a, -, hcircular⟩ := hcircle.exists_isCircular
    exact absurd hcircular (h.not_isCircular_permit a)

end Permits

end PolicyGraph
end Eligibility
