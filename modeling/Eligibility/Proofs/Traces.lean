import Eligibility.Proofs.ConditionValues
import Eligibility.Proofs.Readings
/-!
# Traces of evaluations

**Findings.**  Every node that is evaluated leaves one finding, which says whether the node
holds and with what confidence.  The findings of operands stand before that of the node
they belong to.

**Visits.**  Which nodes an evaluation visits, and in what order, is read off the rule set:
the trees of a policy in postorder, one after the other, then what each required policy
visits, then the policy itself.  A policy of a single operand is that operand and leaves
no finding of its own.

**Results.**
* `IsDrawnFrom.findings_of_evaluateRule`: the findings of a tree.
* `IsDrawnFrom.isTraceOf_evaluatePolicyTo`: the findings of a policy, on any stack.
* `trace_of_evaluate`: the steps of a verdict are the visits of its policy, numbered from one.
-/

namespace Eligibility
open Schema

section Findings

/-- Whether a finding says of a node that its outcome is a given one. -/
structure Finding.Tells (f : Finding) (n : Node) (o : Outcome) : Prop where
  node : n.id = .str f.node
  holds : f.holds = true ↔ o.value = some true
  confidence : f.confidence = o.confidence

theorem Finding.confidenceReader_eq_ok {x y : Number}
    (h : confidenceReader (.float x) = .ok y) : y = x := by
  unfold confidenceReader Weights.fraction numberWithin at h
  simp only [Schema.number, Checked.bind] at h
  split at h
  · cases h
  · split at h
    · cases h
    · exact (Checked.ok.inj h).symm

variable {n : Node} {inputs : Inputs} {o : Outcome} {f : Finding} {e : Evaluated}

/-- A finding on a node tells of the node what it was made from. -/
theorem tells_of_findingOn {rule clause : Json} {operator : String} {consulted : Inputs}
    {text : String} {pending : List Json}
    (h : findingOn n rule clause operator consulted o text pending = .ok f) : f.Tells n o := by
  unfold findingOn Fault.ofChecked at h
  split at h
  next f' hmake =>
    cases h
    obtain ⟨k, p, hk, -, rfl⟩ := Checked.ap_eq_ok.mp hmake
    obtain ⟨l, x, hl, hx, rfl⟩ := Checked.ap_eq_ok.mp hk
    obtain ⟨m, c, hm, -, rfl⟩ := Checked.ap_eq_ok.mp hl
    obtain ⟨q, r, hq, -, rfl⟩ := Checked.ap_eq_ok.mp hm
    obtain ⟨id, hid, rfl⟩ := Checked.map_eq_ok.mp hq
    refine ⟨?_, by simp, Finding.confidenceReader_eq_ok (Checked.under_eq_ok.mp hx)⟩
    cases hnode : n.id <;> rw [hnode] at hid <;> cases hid
    rfl
  · cases h

theorem evaluateMissing_finding {op : Operator} {text : String}
    (h : evaluateMissing n op text = .ok e) : ∃ f, e.findings = [f] ∧ f.Tells n e.outcome := by
  obtain ⟨f, hf, h⟩ := Attempt.bind_eq_ok.mp h
  cases h
  exact ⟨f, rfl, tells_of_findingOn hf⟩

theorem evaluateGiven_finding {op : Operator} {input : String × Json} {holds : Bool} {text : String}
    (h : evaluateGiven n op input holds text = .ok e) :
    ∃ f, e.findings = [f] ∧ f.Tells n e.outcome := by
  obtain ⟨f, hf, h⟩ := Attempt.bind_eq_ok.mp h
  cases h
  exact ⟨f, rfl, tells_of_findingOn hf⟩

/-- A comparison leaves one finding, which tells its outcome. -/
theorem evaluateLeaf_finding (h : evaluateLeaf inputs n = .ok e) :
    ∃ f, e.findings = [f] ∧ f.Tells n e.outcome := by
  obtain ⟨c, -, h⟩ := Attempt.bind_eq_ok.mp h
  obtain ⟨text, -, h⟩ := Attempt.bind_eq_ok.mp h
  split at h
  next o v _ _ =>
    split at h
    next input _ =>
      unfold evaluateSupplied at h
      split at h
      · exact evaluateGiven_finding h
      · exact evaluateGiven_finding h
      · exact evaluateGiven_finding h
      · cases h
      · cases h
    · exact evaluateMissing_finding h
  · cases h

namespace PolicyGraph

variable {g : PolicyGraph}

/-- A rule leaves one finding behind those of its operands, which tells its outcome. -/
theorem concludeRule_finding {es : List (Evaluated × Bool)} (h : concludeRule n es = .ok e) :
    ∃ f, e.findings = Evaluated.findingsOf (es.map Prod.fst) ++ [f] ∧ f.Tells n e.outcome := by
  obtain ⟨op, -, h⟩ := Attempt.bind_eq_ok.mp h
  obtain ⟨o, -, h⟩ := Attempt.bind_eq_ok.mp h
  split at h
  · cases h
  · obtain ⟨f, hf, h⟩ := Attempt.bind_eq_ok.mp h
    cases h
    exact ⟨f, rfl, tells_of_findingOn hf⟩

/-- A policy that is only mentioned leaves one finding, which tells its outcome. -/
theorem evaluateExternal_finding {requiredBy : Name}
    (h : g.evaluateExternal n requiredBy = .ok e) :
    ∃ f, e.findings = [f] ∧ f.Tells n e.outcome := by
  unfold evaluateExternal at h
  split at h
  · cases h
  · obtain ⟨clause, -, h⟩ := Attempt.bind_eq_ok.mp h
    obtain ⟨f, hf, h⟩ := Attempt.bind_eq_ok.mp h
    cases h
    exact ⟨f, rfl, tells_of_findingOn hf⟩

/-- A policy of a single operand is that operand; any other policy leaves one finding behind those
of its operands, which tells its outcome. -/
theorem concludePolicy_findings {es : List Evaluated} (h : g.concludePolicy n es = .ok e) :
    es = [e] ∨ es.length ≠ 1 ∧
      ∃ f, e.findings = Evaluated.findingsOf es ++ [f] ∧ f.Tells n e.outcome := by
  unfold concludePolicy at h
  split at h
  next x =>
    cases h
    exact .inl rfl
  · obtain ⟨clause, -, h⟩ := Attempt.bind_eq_ok.mp h
    obtain ⟨f, hf, h⟩ := Attempt.bind_eq_ok.mp h
    cases h
    exact .inr ⟨by simp, f, rfl, tells_of_findingOn hf⟩
  next x xs hne =>
    obtain ⟨clause, -, h⟩ := Attempt.bind_eq_ok.mp h
    obtain ⟨f, hf, h⟩ := Attempt.bind_eq_ok.mp h
    cases h
    refine .inr ⟨fun hlength => ?_, f, rfl, tells_of_findingOn hf⟩
    exact hne (by simpa using hlength)

end PolicyGraph

end Findings

/-- What an evaluation visits: a rule or a policy. -/
inductive Visit where
  | rule (r : Rule)
  | policy (policy : String)

/-- The identifier of the node that is visited. -/
def Visit.key : Visit → String
  | .rule r => Node.conditionKey r.id
  | .policy t => Node.policyKey t

section Visits

namespace Rule

mutual

/-- The rules of a tree in postorder. -/
def postorder : Rule → List Rule
  | node h cs => postorderAll cs ++ [node h cs]

/-- The rules of several trees in postorder, tree after tree. -/
def postorderAll : List Rule → List Rule
  | [] => []
  | r :: rs => postorder r ++ postorderAll rs

end

theorem postorder_eq (r : Rule) : r.postorder = postorderAll r.children ++ [r] := by
  cases r
  rfl

theorem postorderAll_eq_flatMap (rs : List Rule) : postorderAll rs = rs.flatMap postorder := by
  induction rs with
  | nil => rfl
  | cons r rs ih => rw [postorderAll, ih, List.flatMap_cons]

end Rule

namespace RuleSet

/-- What the evaluation of a policy visits, over at most so many policies that require each
other. -/
def visitsTo (s : RuleSet) : Nat → String → Option (List Visit)
  | 0, _ => none
  | depth + 1, policy => do
      let roots := s.rules.filter (s.assigns policy)
      let required ← (s.requirements policy).mapM fun t =>
        if t ∈ s.policies then s.visitsTo depth t else some [.policy t]
      return (Rule.postorderAll roots).map .rule ++ required.flatten ++
        if roots.length + (s.requirements policy).length = 1 then [] else [.policy policy]

/-- What the evaluation of a policy visits; none where policies require each other in a circle. -/
def visits (s : RuleSet) (policy : String) : Option (List Visit) :=
  s.visitsTo s.policies.length policy

end RuleSet

end Visits

/-- Whether a finding is about what was visited and, where that is a rule, holds exactly where its
node has the value true. -/
def Visit.IsTold (g : PolicyGraph) (inputs : Inputs) : Visit → Finding → Prop
  | .rule r, f => f.node = Node.conditionKey r.id ∧
      ∃ n v, g.node? (.str f.node) = some n ∧ g.HasValue inputs n v ∧
        (f.holds = true ↔ v = some true)
  | .policy t, f => f.node = Node.policyKey t

theorem Visit.IsTold.node_eq {g : PolicyGraph} {inputs : Inputs} {x : Visit} {f : Finding}
    (h : x.IsTold g inputs f) : f.node = x.key := by
  cases x with
  | rule r => exact h.1
  | policy t => exact h

/-- Whether the last finding of an evaluation tells its outcome. -/
def Evaluated.IsConcluded (e : Evaluated) : Prop :=
  ∃ fs f n, e.findings = fs ++ [f] ∧ f.Tells n e.outcome

namespace PolicyGraph

variable {cfg : Settings} {g : PolicyGraph} {p : Plan} {inputs : Inputs}

section Trees

theorem isConcluded_of_evaluateRule {fuel : Nat} {n : Node} {e : Evaluated}
    (h : g.evaluateRule inputs fuel n = .ok e) : e.IsConcluded := by
  cases fuel with
  | zero => cases h
  | succ fuel =>
      rw [evaluateRule] at h
      split at h
      · obtain ⟨f, hf, htells⟩ := evaluateLeaf_finding h
        exact ⟨[], f, n, hf, htells⟩
      · obtain ⟨bs, -, h⟩ := Attempt.bind_eq_ok.mp h
        obtain ⟨es, -, h⟩ := Attempt.bind_eq_ok.mp h
        obtain ⟨f, hf, htells⟩ := concludeRule_finding h
        exact ⟨_, f, n, hf, htells⟩

/-- A finding that tells the meaning of a rule tells of the visit to its node. -/
theorem IsDrawnFrom.isTold_rule (h : g.IsDrawnFrom cfg p) {policy : String} {r : Rule}
    (hr : (policy, r) ∈ p.placed) {o : Outcome} (ho : r.meaning inputs = some o) {f : Finding}
    (hf : f.Tells (Plan.conditionNode cfg policy r.head) o) :
    (Visit.rule r).IsTold g inputs f := by
  have hnode : f.node = Node.conditionKey r.id := (Json.str.inj hf.node).symm
  refine ⟨hnode, Plan.conditionNode cfg policy r.head, o.value, ?_, ?_, hf.holds⟩
  · rw [hnode]
    exact h.node?_condition hr
  · exact (h.hasValue_iff hr).mpr ⟨o, ho, rfl⟩

/-- The findings of a tree tell of its rules in postorder. -/
theorem IsDrawnFrom.findings_of_evaluateRule (h : g.IsDrawnFrom cfg p) {policy : String}
    {r : Rule} (hr : (policy, r) ∈ p.placed) {e : Evaluated}
    (he : g.evaluateRule inputs g.depthBound (Plan.conditionNode cfg policy r.head) = .ok e) :
    List.Forall₂ (fun t => (Visit.rule t).IsTold g inputs) r.postorder e.findings := by
  refine h.induction_evaluateRule (motive := fun r e => List.Forall₂
    (fun t => (Visit.rule t).IsTold g inputs) r.postorder e.findings) ?_ ?_ hr
    (h.hasTreesOf.depth_le_depthBound hr) he
  · intro r e hr hl hnone hmeaning he
    obtain ⟨f, hf, htells⟩ := evaluateLeaf_finding he
    rw [Rule.postorder_eq, hnone, hf]
    exact .cons (h.isTold_rule hr hmeaning htells) .nil
  · intro r e es hr hl hbelow hmeaning he
    obtain ⟨f, hf, htells⟩ := concludeRule_finding he
    rw [Rule.postorder_eq, hf, Rule.postorderAll_eq_flatMap, Evaluated.findingsOf, List.flatMap_map]
    exact List.rel_append (List.rel_flatMap hbelow fun _ _ hx => hx)
      (.cons (h.isTold_rule hr hmeaning htells) .nil)

end Trees

section Policies

/-- A partial map that gives something related for each item of a pairing gives a list of it. -/
theorem exists_mapM_of_forall₂ {α β γ : Type} {f : α → Option γ} {R : γ → β → Prop} {xs : List α}
    {ys : List β} (h : List.Forall₂ (fun x y => ∃ z, f x = some z ∧ R z y) xs ys) :
    ∃ zs, xs.mapM f = some zs ∧ List.Forall₂ R zs ys := by
  induction h with
  | nil => exact ⟨[], rfl, .nil⟩
  | cons hxy _ ih =>
      obtain ⟨z, hz, hR⟩ := hxy
      obtain ⟨zs, hzs, hRs⟩ := ih
      exact ⟨z :: zs, by rw [List.mapM_cons, hz, hzs]; rfl, .cons hR hRs⟩

variable {s : RuleSet}

/-- The trees of a policy leave the findings of the rules in them, in postorder. -/
theorem IsDrawnFrom.findings_of_evaluateRoots (h : g.IsDrawnFrom cfg p) {d : Document}
    (hd : d ∈ p.documents) {own : List Evaluated}
    (hown : g.evaluateRoots inputs (.str d.policy) = .ok own) :
    List.Forall₂ (Visit.IsTold g inputs)
      ((Rule.postorderAll (p.rootsOf d.policy)).map .rule) (Evaluated.findingsOf own) := by
  rw [Rule.postorderAll_eq_flatMap, List.forall₂_map_left_iff]
  exact List.rel_flatMap ((h.forall₂_roots hd hown).imp fun r x hx =>
    h.findings_of_evaluateRule hx.1 hx.2) fun _ _ hx => hx

/-- What an evaluation visits, where it is told by the findings of the evaluation and concluded. -/
def IsTraceOf (g : PolicyGraph) (inputs : Inputs) (vs : List Visit) (e : Evaluated) : Prop :=
  List.Forall₂ (Visit.IsTold g inputs) vs e.findings ∧ e.IsConcluded

theorem isTraceOf_external {t : String} {requiredBy : Name} {e : Evaluated}
    (he : g.evaluateExternal (Plan.externalNode t) requiredBy = .ok e) :
    g.IsTraceOf inputs [.policy t] e := by
  obtain ⟨f, hf, htells⟩ := evaluateExternal_finding he
  refine ⟨?_, [], f, _, hf, htells⟩
  rw [hf]
  exact .cons (Json.str.inj htells.node).symm .nil

/-- Behind the visits of its operands a policy is visited itself unless it has a single one. -/
theorem isTraceOf_concludePolicy {d : Document} {roots : List Rule} {es : List Evaluated}
    {e : Evaluated} (he : g.concludePolicy (Plan.policyNode cfg d roots) es = .ok e)
    {vs : List Visit} (hvs : List.Forall₂ (Visit.IsTold g inputs) vs (Evaluated.findingsOf es))
    (hes : ∀ x ∈ es, x.IsConcluded) :
    g.IsTraceOf inputs (vs ++ if es.length = 1 then [] else [.policy d.policy]) e := by
  rcases concludePolicy_findings he with rfl | ⟨hlength, f, hf, htells⟩
  · refine ⟨?_, hes e (List.mem_singleton_self e)⟩
    simpa [Evaluated.findingsOf] using hvs
  · rw [if_neg hlength]
    refine ⟨?_, _, f, _, hf, htells⟩
    rw [hf]
    exact List.rel_append hvs (.cons (Json.str.inj htells.node).symm .nil)

/-- A policy is traced by its trees in postorder, then by what traces its required policies, and by
the policy itself unless it has a single part. -/
theorem IsDrawnFrom.isTraceOf_parts (h : g.IsDrawnFrom cfg p) {d : Document}
    (hd : d ∈ p.documents) {own required : List Evaluated}
    (hown : g.evaluateRoots inputs (.str d.policy) = .ok own) {vss : List (List Visit)}
    (hrequired : List.Forall₂ (g.IsTraceOf inputs) vss required) {e : Evaluated}
    (he : g.concludePolicy (Plan.policyNode cfg d (p.rootsOf d.policy)) (own ++ required) = .ok e) :
    g.IsTraceOf inputs ((Rule.postorderAll (p.rootsOf d.policy)).map .rule ++ vss.flatten ++
      if (p.rootsOf d.policy).length + vss.length = 1 then [] else [.policy d.policy]) e := by
  have hroots := h.forall₂_roots hd hown
  have hfindings : List.Forall₂ (Visit.IsTold g inputs)
      ((Rule.postorderAll (p.rootsOf d.policy)).map .rule ++ vss.flatten)
      (Evaluated.findingsOf (own ++ required)) := by
    rw [Evaluated.findingsOf, List.flatMap_append]
    refine List.rel_append (h.findings_of_evaluateRoots hd hown) (List.rel_flatten ?_)
    rw [List.forall₂_map_right_iff]
    exact hrequired.imp fun _ _ hx => hx.1
  have hconcluded : ∀ x ∈ own ++ required, x.IsConcluded := by
    intro x hx
    rcases List.mem_append.mp hx with hx | hx
    · obtain ⟨r, -, -, hr⟩ := Attempt.exists_left hroots hx
      exact isConcluded_of_evaluateRule hr
    · obtain ⟨vs, -, hvs⟩ := Attempt.exists_left hrequired hx
      exact hvs.2
  rw [hroots.length_eq, hrequired.length_eq, ← List.length_append]
  exact isTraceOf_concludePolicy he hfindings hconcluded

/-- The visits of a declared policy are told by its evaluation, in as many levels as there are
policies that are not on the stack. -/
theorem IsDrawnFrom.isTraceOf_evaluatePolicyTo (hs : s.IsAccepted) (hplan : s.plan = .ok p)
    (h : g.IsDrawnFrom cfg p) {fuel : Nat} {stack : List String} (hnodup : stack.Nodup)
    (hstack : stack ⊆ s.policies) {d : Document} (hd : d ∈ p.documents) {e : Evaluated}
    (he : g.evaluatePolicyTo inputs fuel (stack.map .str)
      (Plan.policyNode cfg d (p.rootsOf d.policy)) = .ok e) :
    ∃ vs, s.visitsTo (s.policies.length - stack.length) d.policy = some vs ∧
      g.IsTraceOf inputs vs e := by
  refine h.induction_evaluatePolicyTo (motive := fun stack d e => stack.Nodup →
    stack ⊆ s.policies → ∃ vs, s.visitsTo (s.policies.length - stack.length) d.policy = some vs ∧
      g.IsTraceOf inputs vs e) ?_ hd he hnodup hstack
  intro stack d own required e hd hmem hown hrequired he hnodup hstack
  have hdeclared : d.policy ∈ s.policies := by
    rw [← Plan.policies_eq hplan]
    exact List.mem_map_of_mem hd
  obtain ⟨hgrown, hwithin, hlevels⟩ := length_sub_grown hnodup hstack hmem hdeclared
  have hall : List.Forall₂ (fun t x => ∃ vs, (if t ∈ s.policies then
        s.visitsTo (s.policies.length - (stack ++ [d.policy]).length) t
      else some [.policy t]) = some vs ∧ g.IsTraceOf inputs vs x)
      (s.requirements d.policy) required := by
    rw [← Plan.requirements_eq hs hplan hd]
    refine hrequired.imp ?_
    rintro t x ⟨-, ⟨d', hd', rfl, hx⟩ | ⟨hundeclared, hx⟩⟩
    · rw [if_pos (Plan.policies_eq hplan ▸ List.mem_map_of_mem hd')]
      exact hx hgrown hwithin
    · rw [if_neg (Plan.policies_eq hplan ▸ hundeclared)]
      exact ⟨_, rfl, isTraceOf_external hx⟩
  obtain ⟨vss, hvss, htraces⟩ := exists_mapM_of_forall₂ hall
  refine ⟨_, ?_, h.isTraceOf_parts hd hown htraces he⟩
  rw [hlevels, RuleSet.visitsTo, hvss, Plan.rootsOf_eq hs hplan, htraces.length_eq,
    ← hall.length_eq]
  rfl

end Policies

section Verdicts

variable {s : RuleSet}

/-- The steps of a verdict are numbered from one. -/
theorem getElem?_enumerate (k : Nat) (fs : List Finding) (i : Nat) :
    (Step.enumerate k fs)[i]? = fs[i]?.map fun f => ⟨(k + i : Nat), f⟩ := by
  induction fs generalizing k i with
  | nil => rfl
  | cons f r ih =>
      cases i with
      | zero => rfl
      | succ i =>
          rw [Step.enumerate, List.getElem?_cons_succ, List.getElem?_cons_succ, ih]
          simp only [Nat.add_assoc, Nat.add_comm 1]

@[simp] theorem map_finding_enumerate (k : Nat) (fs : List Finding) :
    (Step.enumerate k fs).map Step.finding = fs := by
  induction fs generalizing k with
  | nil => rfl
  | cons f r ih => rw [Step.enumerate, List.map_cons, ih]

/-- The steps of a verdict are what the evaluation of the policy visits, in order and numbered from
one; a step about a rule holds exactly where the node of the rule has the value true, and the last
step tells the outcome of the policy. -/
theorem trace_of_evaluate (hs : s.validate cfg = .ok s) (hg : (s.build cfg).outcome = .ok g)
    {policy inputs : Json} {v : Verdict} (h : (g.evaluate cfg policy inputs).outcome = .ok v) :
    ∃ es q vs, Fault.mappingOrEmpty inputs = .ok es ∧ Query.check policy es = .ok q ∧
      s.visits q.policy = some vs ∧
      (∀ (i : Nat) (t : Step), v.trace[i]? = some t → t.number = i + 1) ∧
      List.Forall₂ (fun x t => x.IsTold g q.inputs t.finding) vs v.trace ∧
      ∃ n e t, g.declaredPolicy (.str q.policy) = .ok n ∧ g.evaluatePolicy q.inputs n = .ok e ∧
        v.trace.getLast? = some t ∧ (t.finding.holds = true ↔ e.outcome.value = some true) ∧
        t.finding.confidence = e.outcome.confidence := by
  obtain ⟨es, q, hes, hq, -⟩ := meaning_of_evaluate hs hg h
  rw [evaluate_eq_answer cfg g hes hq, answer, run_outcome] at h
  obtain ⟨p, hp, hdrawn⟩ := isDrawnFrom_of_build hs hg
  obtain ⟨n, hn, h⟩ := Attempt.bind_eq_ok.mp h
  obtain ⟨e, he, h⟩ := Attempt.bind_eq_ok.mp h
  cases h
  obtain ⟨d, hd, hpolicy, rfl⟩ := hdrawn.exists_document hn
  obtain ⟨vs, hvs, htold, fs, f, m, hfs, htells⟩ := hdrawn.isTraceOf_evaluatePolicyTo
    (RuleSet.isAccepted_of_validate hs).1 (RuleSet.checkedPlan_spec hp).1 List.nodup_nil
    (List.nil_subset _) hd he
  rw [hpolicy] at hvs
  have hlast : (Step.enumerate 1 e.findings).getLast?.map Step.finding = some f := by
    rw [← List.getLast?_map, map_finding_enumerate, hfs, List.getLast?_concat]
  obtain ⟨t, ht, rfl⟩ := Option.map_eq_some_iff.mp hlast
  refine ⟨es, q, vs, hes, hq, hvs, fun i t ht => ?_, ?_, _, e, t, hn, he, ht, htells.holds,
    htells.confidence⟩
  · rw [getElem?_enumerate] at ht
    obtain ⟨f, -, rfl⟩ := Option.map_eq_some_iff.mp ht
    simp [Nat.add_comm]
  · rw [← map_finding_enumerate 1 e.findings, List.forall₂_map_right_iff] at htold
    exact htold

end Verdicts

section Witness

/-- The permit is traced by its tree in postorder, the comparison of the home, which has no other
operand, and the permit itself. -/
theorem trace_of_evaluate_permit : ∃ (g : PolicyGraph) (v : Verdict),
    permit.validate .standard = .ok permit ∧ (permit.build .standard).outcome = .ok g ∧
    (g.evaluate .standard (.str "permit") (.obj [])).outcome = .ok v ∧
    v.trace.map (fun t => t.finding.node) = ["condition:a", "condition:b", "condition:o",
      "condition:n", "condition:r", "policy:permit"] := by
  obtain ⟨g, hvalid, hg, h⟩ := exists_permit
  obtain ⟨v, -, hv, -⟩ := h.exists_verdict_permit hvalid hg [] rfl rfl
    (by simp [Rule.InRange])
  obtain ⟨es, q, vs, hes, hq, hvs, -, htold, -⟩ := trace_of_evaluate hvalid hg hv
  obtain rfl : [] = es := Except.ok.inj hes
  obtain rfl : (⟨"permit", []⟩ : Query) = q := Checked.ok.inj hq
  have hkeys : (permit.visits "permit").map (List.map Visit.key) = some ["condition:a",
      "condition:b", "condition:o", "condition:n", "condition:r", "policy:permit"] := by
    decide +kernel
  rw [hvs, Option.map_some, Option.some.injEq] at hkeys
  refine ⟨g, v, hvalid, hg, hv, ?_⟩
  rw [← hkeys]
  exact Attempt.map_eq_map_of_forall₂ (htold.imp fun _ _ hx => hx.node_eq)

end Witness

end PolicyGraph

end Eligibility
