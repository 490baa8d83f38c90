import Eligibility.Proofs.RequirementChains
/-!
# Verdicts follow the meaning of rule sets

**Results.**
* `meaning_of_evaluate`: a verdict is that of the meaning of its policy.
-/

namespace Eligibility

section Verdicts

variable {cfg : Settings} {g : PolicyGraph} {s : RuleSet}

theorem PolicyGraph.declaredPolicy_eq_ok {policy : Name} {n : Node}
    (h : g.declaredPolicy policy = .ok n) :
    g.policyNode? policy = some n ∧ n.isExternal = false := by
  unfold PolicyGraph.declaredPolicy at h
  split at h
  · cases h
  next m hm =>
  split at h
  · cases h
  next he =>
  cases h
  exact ⟨hm, by simpa using he⟩

/-- The declared policies of a compiled graph are those of the documents of its plan. -/
theorem PolicyGraph.IsDrawnFrom.exists_document {p : Plan} (h : g.IsDrawnFrom cfg p)
    {policy : String} {n : Node} (hn : g.declaredPolicy (.str policy) = .ok n) :
    ∃ d ∈ p.documents, d.policy = policy ∧ n = Plan.policyNode cfg d (p.rootsOf d.policy) := by
  obtain ⟨hnode, hext⟩ := PolicyGraph.declaredPolicy_eq_ok hn
  rw [policyNode?, Node.policyId_str] at hnode
  obtain ⟨hmem, hid⟩ := PolicyGraph.node?_spec hnode
  rcases Plan.mem_layout.mp (h.mem_nodes hmem) with
    ⟨d, hd, rfl⟩ | ⟨d, -, c, -, rfl⟩ | ⟨d, -, t, -, rfl⟩ | ⟨q, -, rfl | ho⟩
  · exact ⟨d, hd, by simpa [Plan.policyNode] using hid, rfl⟩
  · simp [Plan.clauseNode] at hid
  · simp at hext
  · simp [Plan.conditionNode] at hid
  · exact absurd hid (Plan.id_ne_of_mem_operandNodes ho _).1

/-- The verdict on a policy says what the policy means. -/
theorem meaning_of_verdict (hs : s.validate cfg = .ok s) (hg : (s.build cfg).outcome = .ok g)
    {inputs : Inputs} {policy : String} {v : Verdict}
    (h : g.verdict cfg inputs (.str policy) = .ok v) :
    v.policy = policy ∧ policy ∈ s.policies ∧ ∃ o, s.meaning inputs policy = some o ∧
      v.status = PolicyGraph.statusOf cfg o ∧ v.confidence = o.confidence ∧
      v.requirements = if o.value.isNone then some o.pending.members else none := by
  obtain ⟨p, hp, hdrawn⟩ := PolicyGraph.isDrawnFrom_of_build hs hg
  have hplan := (RuleSet.checkedPlan_spec hp).1
  obtain ⟨n, hn, hrest⟩ := Attempt.bind_eq_ok.mp h
  obtain ⟨e, he, hconclude⟩ := Attempt.bind_eq_ok.mp hrest
  obtain ⟨d, hd, rfl, rfl⟩ := hdrawn.exists_document hn
  obtain ⟨hmeaning, -⟩ := policyMeaning_of_evaluatePolicyTo (RuleSet.isAccepted_of_validate hs).1
    hplan hdrawn inputs List.nodup_nil (List.nil_subset _) hd he
  have hdeclared : d.policy ∈ s.policies := by
    rw [← Plan.policies_eq hplan]
    exact List.mem_map_of_mem hd
  cases hconclude
  exact ⟨rfl, hdeclared, e.outcome, hmeaning, rfl, rfl, rfl⟩

/-- Where the evaluation of a policy returns, the verdict is that of the meaning of the policy. -/
theorem meaning_of_evaluate (hs : s.validate cfg = .ok s) (hg : (s.build cfg).outcome = .ok g)
    {policy inputs : Json} {v : Verdict} (h : (g.evaluate cfg policy inputs).outcome = .ok v) :
    ∃ es q, Fault.mappingOrEmpty inputs = .ok es ∧ Query.check policy es = .ok q ∧
      v.policy = q.policy ∧ q.policy ∈ s.policies ∧
      ∃ o, s.meaning q.inputs q.policy = some o ∧ v.status = PolicyGraph.statusOf cfg o ∧
        v.confidence = o.confidence ∧
        v.requirements = if o.value.isNone then some o.pending.members else none := by
  cases hes : Fault.mappingOrEmpty inputs with
  | error f => simp [PolicyGraph.evaluate, hes] at h
  | ok es =>
      cases hq : Query.check policy es with
      | flawed fs => simp [PolicyGraph.evaluate, PolicyGraph.answerChecked, hes, hq] at h
      | ok q =>
          rw [PolicyGraph.evaluate_eq_answer cfg g hes hq, PolicyGraph.answer,
            PolicyGraph.run_outcome] at h
          exact ⟨es, q, rfl, hq, meaning_of_verdict hs hg h⟩

end Verdicts

section Witness

/-- A policy with one comparison that requires a policy declared nowhere. -/
def lone : RuleSet where
  rules := [.node { id := "r", subject := "status", operator := .eq, value := some (.text "ok"),
                    clause := "c", confidence := some Number.one } []]
  documents := [{ policy := "p", clauses := [{ id := "c" }], prerequisites := ["q"] }]

def lonePlan : Plan := ⟨lone.documents, lone.rules.map ("p", ·)⟩

/-- The lone policy waits for the value of its variable and for the policy it requires. -/
theorem meaning_of_evaluate_lone : ∃ g v, (lone.build Settings.standard).outcome = .ok g ∧
    (g.evaluate Settings.standard (.str "p") (.obj [])).outcome = .ok v ∧
      v.status = .conditional ∧ v.requirements = some ["policy:q", "status"] := by
  obtain ⟨g, hvalid, hg, h⟩ : ∃ g, lone.validate Settings.standard = .ok lone ∧
      (lone.build Settings.standard).outcome = .ok g ∧ g.IsDrawnFrom Settings.standard lonePlan :=
    PolicyGraph.exists_build (by decide +kernel) rfl (by decide +kernel)
  have hp : g.IsInternal "p" := h.isInternal_iff.mpr List.mem_cons_self
  have hprecheck : ∀ a, g.IsInternal a → g.precheck (.str a) = .ok () := by
    intro a ha
    obtain rfl : a = "p" := by simpa [lonePlan, lone] using h.isInternal_iff.mp ha
    have hd : { policy := "p", clauses := [{ id := "c" }], prerequisites := ["q"] } ∈
        lonePlan.documents := List.mem_cons_self
    have hok := h.precheck_of_comparison hd (by simp [lonePlan, lone, Plan.rootsOf])
      (by simp [lonePlan, lone, Plan.rootsOf, Operator.isLogical])
    exact hok
  have hquery : Query.check (.str "p") [] = .ok ⟨"p", []⟩ := rfl
  have hinputs : Fault.mappingOrEmpty (.obj []) = .ok [] := rfl
  rcases h.evaluate_cases hprecheck hinputs hquery (fun _ hx => absurd hx List.not_mem_nil) hp with
    ⟨v, hv, -⟩ | ⟨cycle, clauses, -, hcircle⟩
  · obtain ⟨es, q, hes, hq, -, -, o, ho, hstatus, -, hrequirements⟩ :=
      meaning_of_evaluate hvalid hg hv
    obtain rfl : [] = es := Except.ok.inj (hinputs.symm.trans hes)
    obtain rfl : (⟨"p", []⟩ : Query) = q := by simpa [hquery] using hq
    have hmeaning : (lone.meaning [] "p").map (fun o => (o.value, o.pending.members)) =
        some (none, ["policy:q", "status"]) := by decide +kernel
    rw [ho, Option.map_some, Option.some.injEq, Prod.mk.injEq] at hmeaning
    refine ⟨g, v, hg, hv, ?_, ?_⟩
    · rw [hstatus, PolicyGraph.statusOf, hmeaning.1]
    · rw [hrequirements, hmeaning.1, hmeaning.2]
      rfl
  · obtain ⟨a, -, hcircular⟩ := hcircle.exists_isCircular
    obtain ⟨b, ⟨-, hb, hab⟩, -⟩ := Relation.TransGen.head'_iff.mp hcircular
    obtain ⟨d, hd, -, hbd⟩ := h.requires_iff.mp hab
    have hb := h.isInternal_iff.mp hb
    simp [lonePlan, lone] at hd hb
    simp [hd, hb] at hbd

end Witness

end Eligibility
