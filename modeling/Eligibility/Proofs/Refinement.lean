import Eligibility.Proofs.CompiledGraph
import Eligibility.Proofs.Meaning
import Eligibility.Verdict.Simulation
/-!
# Evaluation follows the meaning of rule sets

**Rules.**  In a compiled graph the evaluation of a condition gives a result exactly
where its rule has a meaning, and the outcome is that meaning.

**Policies.**  Where the evaluation of a policy gives a result, the outcome is the
meaning of the policy in the rule set that the graph was compiled from.

**Results.**
* `exists_findingOn`: what is said of a node of a compiled graph has no flaws.
* `evaluateRule_outcome`: evaluation of rules.
-/

namespace Eligibility

/-- The outcome of an evaluation that gives a result. -/
def Evaluated.outcome? (x : Except Fault Evaluated) : Option Outcome := x.toOption.map outcome

@[simp] theorem Evaluated.outcome?_ok (e : Evaluated) :
    outcome? (.ok e) = some e.outcome := rfl

@[simp] theorem Evaluated.outcome?_error (f : Fault) : outcome? (.error f) = none := rfl

section Findings

theorem read_nullable_text (s : Option String) :
    Schema.nullable Schema.text (Json.str? s) = .ok s := by
  cases s <;> rfl

theorem read_confidence {x : Number} (hx : Head.isConfidence x = true) :
    Finding.confidenceReader (.float x) = .ok x := by
  simp only [Head.isConfidence, Bool.and_eq_true] at hx
  obtain ⟨hlow, hhigh⟩ := hx
  have hlow : Number.le (.finite 0) x = true := hlow
  have hhigh : x.le (.finite 1) = true := hhigh
  simp [Finding.confidenceReader, Weights.fraction, Schema.numberWithin, Schema.number,
    Schema.Checked.bind, hlow, hhigh]

theorem read_texts (n : Nat) (ss : List String) :
    Schema.itemsFrom Schema.text n (ss.map .str) = .ok ss := by
  induction ss generalizing n with
  | nil => rfl
  | cons s r ih =>
      rw [List.map_cons, Schema.itemsFrom, ih]
      rfl

/-- A finding about a node that is named by a text, in a clause and a rule that are, has no
flaws. -/
theorem exists_findingOn {n : Node} {id : String} (hn : n.id = .str id) {o : Outcome}
    (ho : Head.isConfidence o.confidence = true) (rule clause : Option String) (operator : String)
    (consulted : Inputs) (explanation : String) (pending : List String) :
    ∃ f, findingOn n (Json.str? rule) (Json.str? clause) operator consulted o explanation
      (pending.map .str) = .ok f := by
  refine ⟨⟨id, rule, clause, operator, consulted, o.value == some true, o.confidence, explanation,
    pending⟩, ?_⟩
  simp only [findingOn, Finding.make, hn, read_nullable_text, read_confidence ho, Schema.list,
    Schema.listOr, read_texts]
  rfl

/-- A finding about a policy that is named by a text has no flaws. -/
theorem exists_policyFinding {n : Node} {k : String} (hn : n.id = .str k) {o : Outcome}
    (ho : Head.isConfidence o.confidence = true) (clause : Option String) (explanation : String)
    (pending : List String) :
    ∃ f, findingOn n .null (Json.str? clause) Operator.and.name [] o explanation
      (pending.map .str) = .ok f :=
  exists_findingOn hn ho none clause Operator.and.name [] explanation pending

end Findings

section Leaves

variable (cfg : Settings) (policy : String) {h : Head} {children : Nat} (inputs : Inputs)

theorem exists_findingOnRule {o : Outcome} (ho : Head.isConfidence o.confidence = true)
    (operator : String) (consulted : Inputs) (explanation : String) (pending : List String) :
    ∃ f, findingOnRule (Plan.conditionNode cfg policy h) operator consulted o explanation
      (pending.map .str) = .ok f := by
  rw [findingOnRule, Plan.conditionNode_rule, Plan.conditionNode_citedClause]
  exact exists_findingOn rfl ho (some h.id) (some h.clause) operator consulted explanation pending

variable {x : Number} (hx : h.confidence = some x) (hconf : Head.isConfidence x = true)

include hx hconf

theorem evaluateMissing_outcome (o : Operator) (text : String) :
    Evaluated.outcome? (evaluateMissing (Plan.conditionNode cfg policy h) o text) =
      some ⟨none, x, .singleton h.subject⟩ := by
  have hnode : (Plan.conditionNode cfg policy h).confidence = x := by simp [Plan.conditionNode, hx]
  obtain ⟨f, hf⟩ := exists_findingOnRule cfg policy (h := h)
    (o := ⟨none, x, .singleton h.subject⟩) hconf o.name []
    ("Missing input '" ++ h.subject ++ "': requirement '" ++ text ++ "' not demonstrated")
    [h.subject]
  simp only [List.map_cons, List.map_nil] at hf
  simp only [evaluateMissing, hnode, Plan.conditionNode_subject, nameSet, Json.display_str, hf]
  rfl

theorem evaluateGiven_outcome (o : Operator) (input : String × Json) (holds : Bool)
    (text : String) :
    Evaluated.outcome? (evaluateGiven (Plan.conditionNode cfg policy h) o input holds text) =
      some ⟨some holds, x, .empty⟩ := by
  have hnode : (Plan.conditionNode cfg policy h).confidence = x := by simp [Plan.conditionNode, hx]
  obtain ⟨f, hf⟩ := exists_findingOnRule cfg policy (h := h) (o := ⟨some holds, x, .empty⟩) hconf
    o.name [input] text []
  rw [List.map_nil] at hf
  simp only [evaluateGiven, hnode, hf]
  rfl

omit hx hconf

/-- A comparison gives a result where it has a meaning, with that meaning as its outcome. -/
theorem evaluateLeaf_outcome (hs : h.IsSound children) (hl : h.operator.isLogical = false) :
    Evaluated.outcome? (evaluateLeaf inputs (Plan.conditionNode cfg policy h)) =
      h.meaning inputs := by
  obtain ⟨-, v, hv, -⟩ := hs.comparison hl
  obtain ⟨x, hx, hconf⟩ := hs.confidence
  simp only [evaluateLeaf, Literal.condition, Literal.operator?, Plan.conditionNode_operator?,
    Plan.conditionNode_value?, Plan.conditionNode_subject, Condition.describe, hv, if_true,
    Attempt.map_ok, Attempt.ok_bind, inputFor, Head.meaning, hx, Entries.lookup_eq]
  cases Json.lookup h.subject inputs with
  | none => exact evaluateMissing_outcome cfg policy hx hconf _ _
  | some given =>
      simp only [Option.map_some, evaluateSupplied]
      cases (Constraint.mk h.subject h.operator v).satisfiedBy given with
      | answer holds => cases holds <;> exact evaluateGiven_outcome cfg policy hx hconf _ _ _ _
      | mismatch m => exact evaluateGiven_outcome cfg policy hx hconf _ _ _ _
      | outOfRange => rfl
      | noInterval => rfl

end Leaves

section Rules

/-- A logical operator combines operands, negated where it is the negation, as their meanings are
combined. -/
theorem combine_eq {op : Operator} (hl : op.isLogical = true) (os : List Outcome) (hne : os ≠ [])
    (hnot : op = .not → os.length = 1) :
    (PolicyGraph.combine (some op)
      (os.map fun o => o.negateIf (decide (op = .not)))).toOption = op.meaning os := by
  cases os with
  | nil => exact absurd rfl hne
  | cons o r =>
      cases op <;> try cases hl
      · have hr : (o :: r).map (fun o => o.negateIf (decide (Operator.and = .not))) = o :: r := by
          simp [Outcome.negateIf]
        rw [hr]
        simp [PolicyGraph.combine, Operator.meaning, Outcome.conjoin_eq, Except.toOption]
      · have hr : (o :: r).map (fun o => o.negateIf (decide (Operator.or = .not))) = o :: r := by
          simp [Outcome.negateIf]
        rw [hr]
        simp [PolicyGraph.combine, Operator.meaning, Outcome.disjoin_eq, Except.toOption]
      · obtain rfl : r = [] := by simpa using hnot rfl
        simp [PolicyGraph.combine, Operator.meaning, Outcome.negateIf, Outcome.negate_eq,
          Except.toOption]

/-- A rule is concluded from operands as its meaning is from theirs. -/
theorem concludeRule_outcome (cfg : Settings) (policy : String) {h : Head} {n : Nat}
    (hs : h.IsSound n) (hl : h.operator.isLogical = true) {es : List (Evaluated × Bool)}
    (hlength : es.length = n) {os : List Outcome} (hsettled : ∀ o ∈ os, o.IsSettled)
    (hes : es.map (fun e => (e.1.outcome, e.2)) =
      os.map fun o => (o, decide (h.operator = .not))) :
    Evaluated.outcome? (PolicyGraph.concludeRule (Plan.conditionNode cfg policy h) es) =
      h.operator.meaning os := by
  obtain ⟨-, hn, hnot⟩ := hs.logical hl
  have hlengths : es.length = os.length := by simpa using congrArg List.length hes
  have hoperands : es.map (fun e => e.1.outcome.negateIf e.2) =
      os.map fun o => o.negateIf (decide (h.operator = .not)) := by
    simpa [Function.comp_def] using congrArg (List.map fun x => x.1.negateIf x.2) hes
  have hcombine := combine_eq hl os
    (fun he => hn (by rw [← hlength, hlengths, he]; rfl))
    (fun ho => by rw [← hlengths, hlength, hnot ho])
  simp only [PolicyGraph.concludeRule, Plan.conditionNode_operator?, Attempt.ok_bind, hoperands]
  rw [← hcombine]
  cases hc : PolicyGraph.combine (some h.operator)
      (os.map fun o => o.negateIf (decide (h.operator = .not))) with
  | error f => rfl
  | ok o =>
      have ho : o.IsSettled := by
        rw [hc] at hcombine
        exact Rule.isSettled_of_combination hsettled hcombine.symm
      obtain ⟨f, hf⟩ := exists_findingOnRule cfg policy (h := h) ho.confidence h.operator.name []
        (combinationText h.operator.name
          (os.map fun o => o.negateIf (decide (h.operator = .not))) o) o.pending.members
      simp only [Attempt.ok_bind, pendingNames, hf]
      rfl

variable {cfg : Settings} {g : PolicyGraph} {p : Plan}

theorem Plan.sound_walk (hp : p.IsSound) {q : String × Rule} (hq : q ∈ p.placed) :
    ∀ t ∈ q.2.walk, t.head.IsSound t.children.length := by
  intro t ht
  obtain ⟨d, hd, he, r, hr, hqr⟩ := Plan.mem_placed.mp hq
  exact hp.rules (q.1, t) (Plan.mem_placed.mpr ⟨d, hd, he, r, hr,
    (Rule.walk_sublist_of_mem r hqr).subset ht⟩)

/-- A condition of a compiled graph is evaluated to the meaning of its rule. -/
theorem evaluateRule_outcome (h : g.IsDrawnFrom cfg p) (inputs : Inputs) {fuel : Nat}
    {policy : String} {r : Rule} (hr : (policy, r) ∈ p.placed) (hfuel : r.depth ≤ fuel) :
    Evaluated.outcome? (g.evaluateRule inputs fuel (Plan.conditionNode cfg policy r.head)) =
      r.meaning inputs := by
  induction fuel generalizing r with
  | zero =>
      obtain ⟨head, cs⟩ := r
      simp [Rule.depth] at hfuel
  | succ fuel ih =>
      have hsound := h.sound.rules _ hr
      obtain ⟨head, cs⟩ := r
      rw [PolicyGraph.evaluateRule, Plan.conditionNode_isLeaf, Rule.meaning, Rule.head_node]
      by_cases hl : head.operator.isLogical = true
      · obtain ⟨bs, hbs, hall⟩ := h.ruleChildren_condition hr
        have hagree : List.Forall₂ (fun (c : Rule) (b : PolicyGraph.Branch) =>
            ((g.evaluateRule inputs fuel b.node).map fun e => (e, b.edge.isNegated)).toOption.map
                (fun e => (e.1.outcome, e.2)) =
              (c.meaning inputs).map fun o => (o, decide (head.operator = .not))) cs bs := by
          refine ((List.forall₂_and_left (p := fun c => c ∈ cs) cs bs).mpr
            ⟨fun _ hc => hc, hall⟩).imp ?_
          rintro c b ⟨hc, hnode, hneg⟩
          have hdepth : c.depth ≤ fuel := by
            have := Rule.depth_le_depthOf hc
            simp only [Rule.depth] at hfuel
            omega
          rw [hnode, hneg, ← ih (Plan.placed_child hr hc) hdepth]
          cases g.evaluateRule inputs fuel (Plan.conditionNode cfg policy c.head) <;> rfl
        have hmeanings := Attempt.toOption_mapM hagree
        rw [Attempt.mapM_map_option, ← Rule.meanings_eq_mapM] at hmeanings
        have hbs : g.ruleChildren (Plan.conditionNode cfg policy head).id = .ok bs := hbs
        rw [if_neg (by simp [hl]), if_pos hl, hbs, Attempt.ok_bind]
        cases hes : bs.mapM fun b =>
            (g.evaluateRule inputs fuel b.node).map fun e => (e, b.edge.isNegated) with
        | error f =>
            rw [hes] at hmeanings
            have : Rule.meanings inputs cs = none := by simpa [Except.toOption] using hmeanings
            rw [this]
            rfl
        | ok es =>
            rw [hes] at hmeanings
            obtain ⟨os, hos, hmap⟩ := Option.map_eq_some_iff.mp hmeanings.symm
            rw [hos, Attempt.ok_bind]
            have hlength : es.length = cs.length :=
              ((Attempt.mapM_eq_ok.mp hes).length_eq.symm).trans hall.length_eq.symm
            exact concludeRule_outcome cfg policy hsound hl hlength
              (Rule.isSettled_of_meanings cs
                (fun t ht => Plan.sound_walk h.sound hr t (by simp [Rule.walk, ht])) hos) hmap.symm
      · rw [if_pos (by simp [hl]), if_neg hl]
        exact evaluateLeaf_outcome cfg policy inputs hsound (by simpa using hl)

end Rules

section Sources

variable {s : RuleSet} {p : Plan}

theorem RuleSet.firstTexts_eq (seen xs : List String) :
    firstTexts seen xs = (xs.filter fun x => decide (x ∉ seen)).eraseDups := by
  induction xs generalizing seen with
  | nil => simp [firstTexts]
  | cons x r ih =>
      rw [firstTexts]
      by_cases hx : x ∈ seen
      · rw [if_pos hx, List.filter_cons_of_neg (by simpa using hx), ih]
      · rw [if_neg hx, List.filter_cons_of_pos (by simpa using hx), List.eraseDups_cons, ih,
          List.filter_filter]
        congr 2
        refine List.filter_congr fun y _ => ?_
        rw [Bool.eq_iff_iff]
        simp

theorem RuleSet.owner_unique {ds : List Document} (hc : ((ownedClauses ds).map (·.1)).Nodup)
    {d e : Document} (hd : d ∈ ds) (he : e ∈ ds) {c : String} (hcd : c ∈ d.clauses.map Clause.id)
    (hce : c ∈ e.clauses.map Clause.id) : d.policy = e.policy := by
  have hmem : ∀ x ∈ ds, c ∈ x.clauses.map Clause.id → (c, x.policy) ∈ ownedClauses ds := by
    intro x hx hcx
    obtain ⟨k, hk, rfl⟩ := List.mem_map.mp hcx
    exact List.mem_flatMap.mpr ⟨x, hx, List.mem_map.mpr ⟨k, hk, rfl⟩⟩
  have := List.inj_on_of_nodup_map hc (hmem d hd hcd) (hmem e he hce) rfl
  exact congrArg Prod.snd this

theorem RuleSet.mentions_of_declare {owned : List String} {rs : List Rule} {d : Document}
    (hd : d ∈ declare owned rs) : d.prerequisites = [] ∧ d.appliesTo = [] := by
  induction rs generalizing owned with
  | nil => simp [declare] at hd
  | cons r rs ih =>
      rcases List.mem_cons.mp hd with rfl | hd
      · exact ⟨rfl, rfl⟩
      · exact ih hd

/-- The policies of a plan are those that its rule set declares. -/
theorem Plan.policies_eq (h : s.plan = .ok p) :
    p.documents.map Document.policy = s.policies := by
  have hmode := (RuleSet.plan_spec h).2
  unfold RuleSet.policies
  split_ifs at hmode with he
  · rw [hmode.1, RuleSet.declare_policies]
    simp [he]
  · rw [hmode.1]
    simp [he]

/-- The rules that a plan gives to a policy are those assigned to it. -/
theorem Plan.rootsOf_eq (hs : s.IsAccepted) (h : s.plan = .ok p) (policy : String) :
    p.rootsOf policy = s.rules.filter (s.assigns policy) := by
  obtain ⟨hroots, hmode⟩ := RuleSet.plan_spec h
  rw [← hroots, List.filter_map, Plan.rootsOf]
  congr 1
  refine List.filter_congr fun r hr => ?_
  unfold RuleSet.assigns
  split_ifs at hmode with he
  · simp [he, hmode.2 r hr]
  · obtain ⟨d, hd, hown, hclause⟩ := RuleSet.owner?_mem (hmode.2 r hr)
    rw [Function.comp_apply, if_neg (by simpa using he), Bool.eq_iff_iff]
    simp only [decide_eq_true_eq, List.any_eq_true, Bool.and_eq_true, List.contains_iff_mem]
    constructor
    · rintro rfl
      exact ⟨d, hd, hown, hclause⟩
    · rintro ⟨e, he', rfl, hc⟩
      rw [← hown, RuleSet.owner_unique hs.clauses hd he' hclause hc]

/-- What a document of a plan requires is what the rule set says that its policy requires. -/
theorem Plan.requirements_eq (hs : s.IsAccepted) (h : s.plan = .ok p) {d : Document}
    (hd : d ∈ p.documents) :
    RuleSet.firstTexts [] d.prerequisites = s.requirements d.policy := by
  have hmode := (RuleSet.plan_spec h).2
  rw [RuleSet.firstTexts_eq]
  split_ifs at hmode with he
  · rw [hmode.1] at hd
    simp [RuleSet.requirements, he, (RuleSet.mentions_of_declare hd).1]
  · rw [hmode.1] at hd
    have hfind : s.documents.find? (fun e => e.policy = d.policy) = some d := by
      cases hf : s.documents.find? fun e => e.policy = d.policy with
      | none => exact absurd (List.find?_eq_none.mp hf d hd) (by simp)
      | some e =>
          have hmem := List.mem_of_find?_eq_some hf
          have hpolicy : e.policy = d.policy := by simpa using List.find?_some hf
          rw [List.inj_on_of_nodup_map hs.policies hmem hd hpolicy]
    simp [RuleSet.requirements, hfind]

end Sources


section Policies

variable {cfg : Settings} {g : PolicyGraph} {p : Plan}

/-- The top-level rules of a policy are evaluated to their meanings. -/
theorem evaluateRoots_outcomes (h : g.IsDrawnFrom cfg p) (inputs : Inputs) {d : Document}
    (hd : d ∈ p.documents) :
    (g.evaluateRoots inputs (.str d.policy)).toOption.map (List.map Evaluated.outcome) =
      Rule.meanings inputs (p.rootsOf d.policy) := by
  obtain ⟨bs, hbs, hall⟩ := h.policyRoots_policy hd
  rw [PolicyGraph.evaluateRoots, hbs, Attempt.ok_bind, Rule.meanings_eq_mapM]
  refine Attempt.toOption_mapM ?_
  refine ((List.forall₂_and_left (p := fun r => r ∈ p.rootsOf d.policy) _ bs).mpr
    ⟨fun _ hr => hr, hall⟩).imp ?_
  rintro r b ⟨hr, hnode, -⟩
  have hplaced := Plan.placed_root hd hr
  have hdepth : r.depth ≤ g.depthBound := by
    have hnodes : r.depth ≤ g.nodes.length := h.depth_le hplaced
    unfold PolicyGraph.depthBound
    omega
  rw [hnode]
  exact evaluateRule_outcome h inputs hplaced hdepth

/-- The meanings of the top-level rules of a policy are settled. -/
theorem isSettled_of_roots (h : g.IsDrawnFrom cfg p) {inputs : Inputs} {d : Document}
    (hd : d ∈ p.documents) {os : List Outcome}
    (hos : Rule.meanings inputs (p.rootsOf d.policy) = some os) : ∀ o ∈ os, o.IsSettled := by
  refine Rule.isSettled_of_meanings _ (fun t ht => ?_) hos
  obtain ⟨r, hr, htr⟩ := Rule.mem_walkAll.mp ht
  exact Plan.sound_walk h.sound (Plan.placed_root hd hr) t htr

/-- A policy that is only mentioned is evaluated to what is known of it. -/
theorem exists_evaluateExternal (h : g.IsDrawnFrom cfg p) (t : String) {k : String}
    (hk : g.hasNode (.str (Node.policyKey k)) = true) :
    ∃ e, g.evaluateExternal (Plan.externalNode t) (.str k) = .ok e ∧
      e.outcome = RuleSet.unknownPolicy t := by
  obtain ⟨c, hc⟩ := h.firstClause_policy hk
  obtain ⟨f, hf⟩ := exists_policyFinding (n := Plan.externalNode t) (k := Node.policyKey t) rfl
    (o := RuleSet.unknownPolicy t) Outcome.isConfidence_one c
    ("Required policy '" ++ t ++
      "' is not part of this graph; its eligibility cannot be established")
    (RuleSet.unknownPolicy t).pending.members
  refine ⟨⟨RuleSet.unknownPolicy t, [f], .empty⟩, ?_, rfl⟩
  have husable : Name.isUsable (Json.str t) = true := rfl
  unfold RuleSet.unknownPolicy at hf
  simp [PolicyGraph.evaluateExternal, Plan.externalNode_policy, husable, hc, pendingNames, hf,
    RuleSet.unknownPolicy]

/-- A policy is concluded to the conjunction of its operands. -/
theorem exists_concludePolicy (h : g.IsDrawnFrom cfg p) {d : Document} (hd : d ∈ p.documents)
    {es : List Evaluated} (hes : ∀ e ∈ es, e.outcome.IsSettled) :
    ∃ e, g.concludePolicy (Plan.policyNode cfg d (p.rootsOf d.policy)) es = .ok e ∧
      e.outcome = .conjunction (es.map Evaluated.outcome) := by
  obtain ⟨c, hc⟩ := h.firstClause_policy (PolicyGraph.hasNode_of_node? (h.node?_policy hd))
  have finding {o : Outcome} (ho : o.IsSettled) (text : String) :=
    exists_policyFinding (n := Plan.policyNode cfg d (p.rootsOf d.policy))
      (k := Node.policyKey d.policy) rfl ho.confidence c text o.pending.members
  match es, hes with
  | [], _ =>
      have htrue : (Outcome.conjunction []).IsSettled := Outcome.isSettled_conjunction (by simp)
      obtain ⟨f, hf⟩ := finding htrue ("Policy '" ++ d.policy ++ "' has no conditions")
      have hf : findingOn _ _ _ _ _ (⟨some true, Number.one, .empty⟩ : Outcome) _ [] = .ok f := hf
      refine ⟨⟨⟨some true, Number.one, .empty⟩, [f], .empty⟩, ?_, rfl⟩
      simp only [PolicyGraph.concludePolicy, Plan.policyNode_policy, hc, Json.display_str,
        Attempt.ok_bind, hf]
      rfl
  | [e], hes =>
      refine ⟨e, rfl, ?_⟩
      rw [List.map_cons, List.map_nil, Outcome.conjunction_singleton (hes e (by simp))]
  | e :: e' :: r, hes =>
      have hsettled : (Outcome.conjoin e.outcome ((e' :: r).map Evaluated.outcome)).IsSettled := by
        rw [Outcome.conjoin_eq, ← List.map_cons]
        refine Outcome.isSettled_conjunction fun o ho => ?_
        obtain ⟨x, hx, rfl⟩ := List.mem_map.mp ho
        exact hes x hx
      obtain ⟨f, hf⟩ := finding hsettled ("Policy '" ++ d.policy ++ "': " ++
        combinationText Operator.and.name (e.outcome :: (e' :: r).map Evaluated.outcome)
          (Outcome.conjoin e.outcome ((e' :: r).map Evaluated.outcome)))
      refine ⟨⟨Outcome.conjoin e.outcome ((e' :: r).map Evaluated.outcome),
        Evaluated.findingsOf (e :: e' :: r) ++ [f], Evaluated.missingOf (e :: e' :: r)⟩, ?_, ?_⟩
      · simp only [PolicyGraph.concludePolicy, Plan.policyNode_policy, hc, Json.display_str,
          Attempt.ok_bind, pendingNames, hf]
        rfl
      · rw [Outcome.conjoin_eq, ← List.map_cons]

/-- What is evaluated for a policy that is required. -/
def PolicyGraph.evaluateRequired (g : PolicyGraph) (inputs : Inputs) (fuel : Nat)
    (stack : List Name) (policy name : Name) : Except Fault Evaluated := do
  let m ← g.node (Node.policyId name)
  if m.isExternal then g.evaluateExternal m policy
  else g.evaluatePolicyTo inputs fuel (stack ++ [policy]) m

/-- The evaluation of a policy that is not on the stack, step by step. -/
theorem evaluatePolicyTo_succ (inputs : Inputs) (fuel : Nat) (stack : List Name) (n : Node) :
    g.evaluatePolicyTo inputs (fuel + 1) stack n =
      if n.policy.among stack then
        (g.circularFault stack n.policy).bind .error
      else g.precheck n.policy >>= fun _ =>
        g.evaluateRoots inputs n.policy >>= fun own =>
        g.requiredPolicies n.policy >>= fun names =>
        names.mapM (g.evaluateRequired inputs fuel stack n.policy) >>= fun required =>
        g.concludePolicy n (own ++ required) := by
  rw [PolicyGraph.evaluatePolicyTo]
  split
  · cases g.circularFault stack n.policy <;> rfl
  · rfl

theorem isSettled_unknownPolicy (t : String) : (RuleSet.unknownPolicy t).IsSettled :=
  ⟨Outcome.isConfidence_one, fun hv => absurd rfl hv⟩

/-- A required policy that is declared is evaluated on the grown stack; one that is not is
unknown. -/
theorem evaluateRequired_cases (h : g.IsDrawnFrom cfg p) (inputs : Inputs) (fuel : Nat)
    (stack : List String) {d : Document} (hd : d ∈ p.documents) {t : String}
    (ht : t ∈ d.prerequisites) :
    (∃ e ∈ p.documents, e.policy = t ∧
      g.evaluateRequired inputs fuel (stack.map .str) (.str d.policy) (.str t) =
        g.evaluatePolicyTo inputs fuel ((stack ++ [d.policy]).map .str)
          (Plan.policyNode cfg e (p.rootsOf e.policy))) ∨
    (t ∉ p.documents.map Document.policy ∧
      ∃ x, g.evaluateRequired inputs fuel (stack.map .str) (.str d.policy) (.str t) = .ok x ∧
        x.outcome = RuleSet.unknownPolicy t) := by
  unfold PolicyGraph.evaluateRequired
  rcases h.node?_required hd ht with ⟨e, he, rfl, hn⟩ | ⟨hundeclared, hn⟩
  · refine .inl ⟨e, he, rfl, ?_⟩
    rw [Node.policyId_str, PolicyGraph.node_eq_ok.mpr hn, Attempt.ok_bind,
      Plan.policyNode_isExternal, if_neg (by simp), List.map_append]
    rfl
  · refine .inr ⟨hundeclared, ?_⟩
    rw [Node.policyId_str, PolicyGraph.node_eq_ok.mpr hn, Attempt.ok_bind,
      Plan.externalNode_isExternal, if_pos rfl]
    exact exists_evaluateExternal h t (PolicyGraph.hasNode_of_node? (h.node?_policy hd))

/-- With one more policy on the stack, one level less is left. -/
theorem length_sub_grown {policies stack : List String} {a : String} (hnodup : stack.Nodup)
    (hstack : stack ⊆ policies) (hmem : a ∉ stack) (ha : a ∈ policies) :
    (stack ++ [a]).Nodup ∧ stack ++ [a] ⊆ policies ∧
      policies.length - stack.length = (policies.length - (stack ++ [a]).length) + 1 := by
  have hgrown : (stack ++ [a]).Nodup := by
    refine List.nodup_append.mpr ⟨hnodup, List.nodup_singleton a, ?_⟩
    rintro x hx y hy rfl
    exact hmem (List.mem_singleton.mp hy ▸ hx)
  have hwithin : stack ++ [a] ⊆ policies := by
    intro x hx
    rcases List.mem_append.mp hx with hx | hx
    · exact hstack hx
    · rwa [List.mem_singleton.mp hx]
  refine ⟨hgrown, hwithin, ?_⟩
  have := (List.subperm_of_subset hgrown hwithin).length_le
  simp only [List.length_append, List.length_singleton] at this ⊢
  omega

variable {s : RuleSet}

/-- Where a policy gives a result, its outcome is the meaning of the policy, in as many levels as
there are policies that are not on the stack. -/
theorem policyMeaning_of_evaluatePolicyTo (hs : s.IsAccepted) (hplan : s.plan = .ok p)
    (h : g.IsDrawnFrom cfg p) (inputs : Inputs) {fuel : Nat} {stack : List String}
    (hnodup : stack.Nodup) (hstack : stack ⊆ s.policies) {d : Document} (hd : d ∈ p.documents)
    {e : Evaluated}
    (he : g.evaluatePolicyTo inputs fuel (stack.map .str)
      (Plan.policyNode cfg d (p.rootsOf d.policy)) = .ok e) :
    s.policyMeaning inputs (s.policies.length - stack.length) d.policy = some e.outcome ∧
      e.outcome.IsSettled := by
  induction fuel generalizing stack d e with
  | zero => cases he
  | succ fuel ih =>
      rw [evaluatePolicyTo_succ, Plan.policyNode_policy, Json.among_strs] at he
      by_cases hmem : d.policy ∈ stack
      · rw [if_pos (by simpa using hmem)] at he
        cases hc : g.circularFault (stack.map .str) (.str d.policy) <;> rw [hc] at he <;> cases he
      rw [if_neg (by simpa using hmem)] at he
      obtain ⟨-, -, he⟩ := Attempt.bind_eq_ok.mp he
      obtain ⟨own, hown, he⟩ := Attempt.bind_eq_ok.mp he
      rw [h.requiredPolicies_policy hd, Attempt.ok_bind] at he
      obtain ⟨required, hrequired, he⟩ := Attempt.bind_eq_ok.mp he
      have hdeclared : d.policy ∈ s.policies := by
        rw [← Plan.policies_eq hplan]
        exact List.mem_map_of_mem hd
      obtain ⟨hgrown, hwithin, hlevels⟩ := length_sub_grown hnodup hstack hmem hdeclared
      have hroots :
          Rule.meanings inputs (p.rootsOf d.policy) = some (own.map Evaluated.outcome) := by
        rw [← evaluateRoots_outcomes h inputs hd, hown]
        rfl
      have hstep : ∀ t ∈ d.prerequisites, ∀ x,
          g.evaluateRequired inputs fuel (stack.map .str) (.str d.policy) (.str t) = .ok x →
          (if t ∈ s.policies then
            s.policyMeaning inputs (s.policies.length - (stack ++ [d.policy]).length) t
          else some (RuleSet.unknownPolicy t)) = some x.outcome ∧ x.outcome.IsSettled := by
        intro t ht x hx
        rw [← Plan.policies_eq hplan]
        rcases evaluateRequired_cases h inputs fuel stack hd ht with
          ⟨e, he, rfl, hrest⟩ | ⟨hundeclared, y, hy, houtcome⟩
        · rw [if_pos (List.mem_map_of_mem he), Plan.policies_eq hplan]
          exact ih hgrown hwithin he (hrest.symm.trans hx)
        · obtain rfl : y = x := Except.ok.inj (hy.symm.trans hx)
          rw [if_neg hundeclared, houtcome]
          exact ⟨rfl, isSettled_unknownPolicy t⟩
      have hall : List.Forall₂ (fun t x => (if t ∈ s.policies then
            s.policyMeaning inputs (s.policies.length - (stack ++ [d.policy]).length) t
          else some (RuleSet.unknownPolicy t)) = some x.outcome ∧ x.outcome.IsSettled)
          (s.requirements d.policy) required := by
        have hitems := Attempt.mapM_eq_ok.mp hrequired
        rw [List.forall₂_map_left_iff] at hitems
        rw [← Plan.requirements_eq hs hplan hd]
        refine ((List.forall₂_and_left (p := fun t => t ∈ d.prerequisites) _ required).mpr
          ⟨fun t ht => (Plan.mem_firstTexts.mp ht).1, hitems⟩).imp ?_
        exact fun t x hx => hstep t hx.1 x hx.2
      have hrequirements := Attempt.mapM_eq_some_map (hall.imp fun _ _ hx => hx.1)
      have hrequiredSettled : ∀ x ∈ required, x.outcome.IsSettled := by
        intro x hx
        obtain ⟨name, hname, hf⟩ := Attempt.exists_of_mem_mapM hrequired hx
        obtain ⟨t, ht, rfl⟩ := List.mem_map.mp hname
        exact (hstep t (Plan.mem_firstTexts.mp ht).1 x hf).2
      have hsettled : ∀ x ∈ own ++ required, x.outcome.IsSettled := by
        intro x hx
        rcases List.mem_append.mp hx with hx | hx
        · exact isSettled_of_roots h hd hroots _ (List.mem_map_of_mem hx)
        · exact hrequiredSettled x hx
      obtain ⟨e', he', hconclusion⟩ := exists_concludePolicy h hd hsettled
      obtain rfl : e' = e := Except.ok.inj (he'.symm.trans he)
      rw [hconclusion]
      refine ⟨?_, Outcome.isSettled_conjunction ?_⟩
      · rw [hlevels, RuleSet.policyMeaning, ← Plan.rootsOf_eq hs hplan, hroots, hrequirements,
          List.map_append]
        rfl
      · intro o ho
        obtain ⟨x, hx, rfl⟩ := List.mem_map.mp ho
        exact hsettled x hx

end Policies

section Verdicts

theorem PolicyGraph.run_outcome (cfg : Settings) (g : PolicyGraph) (inputs : Inputs)
    (policy : Name) : (g.run cfg inputs policy).outcome = g.verdict cfg inputs policy := by
  unfold run
  cases g.verdict cfg inputs policy <;> rfl

/-- The evaluation of a policy against JSON is the answer to the query that they make. -/
theorem PolicyGraph.evaluate_eq_answer (cfg : Settings) (g : PolicyGraph) {policy inputs : Json}
    {es : Entries Json} {q : Query} (hes : Fault.mappingOrEmpty inputs = .ok es)
    (hq : Query.check policy es = .ok q) : g.evaluate cfg policy inputs = g.answer cfg q := by
  rw [evaluate, hes]
  simp only [hq]
  rfl

end Verdicts

end Eligibility
