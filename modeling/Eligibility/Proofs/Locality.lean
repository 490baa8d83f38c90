import Eligibility.Proofs.Commitments
import Eligibility.Proofs.MoreInputs
/-!
# What an evaluation reads

**Rules.**  The evaluation of a rule reads the tree below it and the inputs that its comparisons
ask for.  Graphs with the same trees and inputs that agree there cannot be told apart.

**Policies.**  The evaluation of a policy reads its rules, its clauses and the policies that it
requires, and so on along requirements.  How much fuel there is does not matter: both graphs have
enough.

**Results.**
* `HasTreesOf.evaluateRule_eq`, `IsDrawnFrom.evaluatePolicyTo_eq`: rules and policies.
* `IsDrawnFrom.run_eq`: graphs that concur on what is within reach of a policy give it the same
  verdict, or the same fault.
* `PolicyGraph.evaluate_of_agreeing_inputs`: inputs that no policy within reach asks for do not
  matter.
-/

namespace Eligibility

/-- A comparison reads only the input for its variable. -/
theorem evaluateLeaf_congr {n : Node} {inputs inputs' : Inputs}
    (h : inputFor inputs' n.subject = inputFor inputs n.subject) :
    evaluateLeaf inputs' n = evaluateLeaf inputs n := by
  simp only [evaluateLeaf, h]

namespace PolicyGraph

variable {cfg : Settings} {g h : PolicyGraph} {p : Plan} {inputs inputs' : Inputs}

section Rules

variable {policy : String}

/-- Whether inputs agree on the variables that the comparisons of a policy ask for. -/
def AgreeFor (p : Plan) (inputs inputs' : Inputs) (policy : String) : Prop :=
  ∀ r, (policy, r) ∈ p.placed → r.head.operator.isLogical = false →
    inputFor inputs' (.str r.head.subject) = inputFor inputs (.str r.head.subject)

/-- Graphs that have a tree evaluate it alike, however much fuel they have left of what its depth
asks for. -/
theorem HasTreesOf.evaluateRule_eq (hg : g.HasTreesOf cfg p) (hh : h.HasTreesOf cfg p)
    (hagree : AgreeFor p inputs inputs' policy) {r : Rule} (hr : (policy, r) ∈ p.placed)
    {levels levels' : Nat} (hlevels : r.depth ≤ levels) (hlevels' : r.depth ≤ levels') :
    h.evaluateRule inputs' levels' (Plan.conditionNode cfg policy r.head) =
      g.evaluateRule inputs levels (Plan.conditionNode cfg policy r.head) := by
  induction levels generalizing r levels' with
  | zero =>
      obtain ⟨head, cs⟩ := r
      simp [Rule.depth] at hlevels
  | succ levels ih =>
      cases levels' with
      | zero =>
          obtain ⟨head, cs⟩ := r
          simp [Rule.depth] at hlevels'
      | succ levels' =>
          rw [evaluateRule, evaluateRule, Plan.conditionNode_isLeaf]
          by_cases hl : r.head.operator.isLogical = true
          · obtain ⟨bs, hbs, hall⟩ := hg.branches hr
            obtain ⟨bs', hbs', hall'⟩ := hh.branches hr
            have hid : (Plan.conditionNode cfg policy r.head).id =
                .str (Node.conditionKey r.id) := rfl
            -- each operand is evaluated alike, with one level less
            have hstep : List.Forall₂ (fun b' b =>
                ((h.evaluateRule inputs' levels' b'.node).map fun e => (e, b'.edge.isNegated)) =
                  (g.evaluateRule inputs levels b.node).map fun e => (e, b.edge.isNegated))
                bs' bs := by
              have hmem := (List.forall₂_and_left _ _).mpr ⟨fun c hc => hc, hall'⟩
              refine Attempt.forall₂_join hmem hall ?_
              rintro c b' b ⟨hc, hb'⟩ hb
              rw [hb.1, hb'.1, hb.2, hb'.2, ih (Plan.placed_child hr hc)
                (depth_le_of_mem_children hlevels hc) (depth_le_of_mem_children hlevels' hc)]
            rw [if_neg (by simp [hl]), if_neg (by simp [hl]), hid, hbs, hbs', Attempt.ok_bind,
              Attempt.ok_bind, Attempt.mapM_eq_mapM hstep]
          · rw [if_pos (by simp [hl]), if_pos (by simp [hl])]
            refine evaluateLeaf_congr ?_
            rw [Plan.conditionNode_subject]
            exact hagree r hr (by simpa using hl)

/-- Graphs that have the trees of a policy evaluate its rules alike. -/
theorem HasTreesOf.evaluateRoots_eq (hg : g.HasTreesOf cfg p) (hh : h.HasTreesOf cfg p)
    {d : Document} (hagree : AgreeFor p inputs inputs' d.policy) (hd : d ∈ p.documents) :
    h.evaluateRoots inputs' (.str d.policy) = g.evaluateRoots inputs (.str d.policy) := by
  obtain ⟨bs, hbs, hall⟩ := hg.roots hd
  obtain ⟨bs', hbs', hall'⟩ := hh.roots hd
  rw [evaluateRoots, evaluateRoots, hbs, hbs', Attempt.ok_bind, Attempt.ok_bind]
  have hmem := (List.forall₂_and_left _ _).mpr ⟨fun c hc => hc, hall'⟩
  refine Attempt.mapM_eq_mapM (Attempt.forall₂_join hmem hall ?_)
  rintro r b' b ⟨hr, hb'⟩ hb
  have hplaced := Plan.placed_root hd hr
  rw [hb.1, hb'.1, hg.evaluateRule_eq hh hagree hplaced (hg.depth_le_depthBound hplaced)
    (hh.depth_le_depthBound hplaced)]

/-- Graphs that have the trees of a policy find the same contradictions in it. -/
theorem HasTreesOf.precheck_eq (hg : g.HasTreesOf cfg p) (hh : h.HasTreesOf cfg p) {d : Document}
    (hd : d ∈ p.documents) : h.precheck (.str d.policy) = g.precheck (.str d.policy) := by
  rw [precheck, precheck, contradiction?, contradiction?, hg.paths_eq hd, hh.paths_eq hd]

end Rules

section Policies

/-- Whether two graphs say the same of a policy beside its rules, and inputs agree on what its
rules ask for. -/
structure Concurs (g h : PolicyGraph) (p : Plan) (inputs inputs' : Inputs) (d : Document) :
    Prop where
  required : h.requiredPolicies (.str d.policy) = g.requiredPolicies (.str d.policy)
  clauses : h.clausesOf (.str d.policy) = g.clausesOf (.str d.policy)
  nodes : ∀ t ∈ d.prerequisites, h.node (Node.policyId (.str t)) = g.node (Node.policyId (.str t))
  inputs : AgreeFor p inputs inputs' d.policy

theorem firstClause_congr {a : Name} (ha : h.clausesOf a = g.clausesOf a) :
    h.firstClause a = g.firstClause a := by
  rw [firstClause, firstClause, ha]

theorem evaluateExternal_congr {n : Node} {a : Name} (ha : h.clausesOf a = g.clausesOf a) :
    h.evaluateExternal n a = g.evaluateExternal n a := by
  rw [evaluateExternal, evaluateExternal, firstClause_congr ha]

theorem concludePolicy_congr {n : Node} {es : List Evaluated}
    (hn : h.clausesOf n.policy = g.clausesOf n.policy) :
    h.concludePolicy n es = g.concludePolicy n es := by
  unfold concludePolicy
  rw [firstClause_congr hn]

/-- The fault of a circle names the clauses of the policies on it. -/
theorem circularFault_congr {stack : List Name} {a : Name}
    (hall : ∀ b ∈ stack ++ [a], h.clausesOf b = g.clausesOf b) :
    h.circularFault stack a = g.circularFault stack a := by
  have hparts : ((stack.dropWhile fun b => !b.alike a) ++ [a]).mapM h.clausesOf =
      ((stack.dropWhile fun b => !b.alike a) ++ [a]).mapM g.clausesOf := by
    refine Attempt.mapM_congr fun b hb => hall b ?_
    rcases List.mem_append.mp hb with hb | hb
    · exact List.mem_append_left _ ((List.dropWhile_sublist _).subset hb)
    · exact List.mem_append_right _ hb
  simp only [circularFault, hparts]

variable {start : String}

/-- Graphs that concur name the same clauses for the policies of a stack. -/
theorem IsDrawnFrom.clausesOf_stack (hg : g.IsDrawnFrom cfg p)
    (hconcurs : ∀ d ∈ p.documents, Relation.ReflTransGen g.Requires start d.policy →
      g.Concurs h p inputs inputs' d)
    {stack : List String} {top : String} (hstack : g.IsStackFrom start stack top) :
    ∀ b ∈ stack.map Json.str ++ [.str top], h.clausesOf b = g.clausesOf b := by
  intro b hb
  obtain ⟨a, ha, rfl⟩ : ∃ a ∈ stack ++ [top], .str a = b := by
    rw [← List.mem_map, List.map_append]
    exact hb
  obtain ⟨e, he, rfl⟩ := List.mem_map.mp (hg.isInternal_iff.mp (hstack.internal a ha))
  exact (hconcurs e he (hstack.reachable _ ha)).clauses

/-- Graphs that concur on a policy evaluate one that it requires alike, if they do so where it is
declared. -/
theorem IsDrawnFrom.evaluateRequired_eq (hg : g.IsDrawnFrom cfg p) {fuel fuel' : Nat}
    {stack : List String} {d : Document} (hd : d ∈ p.documents) {t : String}
    (ht : t ∈ d.prerequisites) (hhere : g.Concurs h p inputs inputs' d)
    (hrest : ∀ e ∈ p.documents, e.policy = t →
      h.evaluatePolicyTo inputs' fuel' ((stack ++ [d.policy]).map .str)
          (Plan.policyNode cfg e (p.rootsOf e.policy)) =
        g.evaluatePolicyTo inputs fuel ((stack ++ [d.policy]).map .str)
          (Plan.policyNode cfg e (p.rootsOf e.policy))) :
    h.evaluateRequired inputs' fuel' (stack.map .str) (.str d.policy) (.str t) =
      g.evaluateRequired inputs fuel (stack.map .str) (.str d.policy) (.str t) := by
  rw [evaluateRequired, evaluateRequired, hhere.nodes t ht, Node.policyId_str]
  rcases hg.node?_required hd ht with ⟨e, he, rfl, hn⟩ | ⟨-, hn⟩
  · have hsame := hrest e he rfl
    rw [List.map_append] at hsame
    rw [node_eq_ok.mpr hn, Attempt.ok_bind, Attempt.ok_bind, Plan.policyNode_isExternal,
      if_neg (by simp), if_neg (by simp)]
    exact hsame
  · rw [node_eq_ok.mpr hn, Attempt.ok_bind, Attempt.ok_bind, Plan.externalNode_isExternal,
      if_pos rfl, if_pos rfl, evaluateExternal_congr hhere.clauses]

/-- Graphs that concur on every policy within reach evaluate a policy on a stack alike. -/
theorem IsDrawnFrom.evaluatePolicyTo_eq (hg : g.IsDrawnFrom cfg p) (hh : h.HasTreesOf cfg p)
    (hconcurs : ∀ d ∈ p.documents, Relation.ReflTransGen g.Requires start d.policy →
      g.Concurs h p inputs inputs' d)
    {fuel fuel' : Nat} {stack : List String} {d : Document} (hd : d ∈ p.documents)
    (hstack : g.IsStackFrom start stack d.policy)
    (hfuel : p.documents.length < fuel + stack.length)
    (hfuel' : p.documents.length < fuel' + stack.length) :
    h.evaluatePolicyTo inputs' fuel' (stack.map .str)
        (Plan.policyNode cfg d (p.rootsOf d.policy)) =
      g.evaluatePolicyTo inputs fuel (stack.map .str)
        (Plan.policyNode cfg d (p.rootsOf d.policy)) := by
  induction fuel generalizing stack d fuel' with
  | zero =>
      have := hstack.length_le hg
      omega
  | succ fuel ih =>
      cases fuel' with
      | zero =>
          have := hstack.length_le hg
          omega
      | succ fuel' =>
          have hhere := hconcurs d hd (hstack.reachable _ (by simp))
          rw [evaluatePolicyTo_succ, evaluatePolicyTo_succ, Plan.policyNode_policy,
            Json.among_strs]
          by_cases hmem : d.policy ∈ stack
          · rw [if_pos (by simpa using hmem), if_pos (by simpa using hmem),
              circularFault_congr (hg.clausesOf_stack hconcurs hstack)]
          have hrequired : ((RuleSet.firstTexts [] d.prerequisites).map Json.str).mapM
                (h.evaluateRequired inputs' fuel' (stack.map .str) (.str d.policy)) =
              ((RuleSet.firstTexts [] d.prerequisites).map Json.str).mapM
                (g.evaluateRequired inputs fuel (stack.map .str) (.str d.policy)) := by
            refine Attempt.mapM_congr fun name hname => ?_
            obtain ⟨t, hfirst, rfl⟩ := List.mem_map.mp hname
            obtain ⟨ht, -⟩ := Plan.mem_firstTexts.mp hfirst
            refine hg.evaluateRequired_eq hd ht hhere fun e he hte => ?_
            have hlength : (stack ++ [d.policy]).length = stack.length + 1 := by simp
            exact ih he (hg.push_required hd hstack hmem he (hte ▸ ht)) (by omega) (by omega)
          have hconclude : ∀ es,
              h.concludePolicy (Plan.policyNode cfg d (p.rootsOf d.policy)) es =
                g.concludePolicy (Plan.policyNode cfg d (p.rootsOf d.policy)) es :=
            fun es => concludePolicy_congr (by rw [Plan.policyNode_policy, hhere.clauses])
          rw [if_neg (by simpa using hmem), if_neg (by simpa using hmem),
            hg.hasTreesOf.precheck_eq hh hd, hg.hasTreesOf.evaluateRoots_eq hh hhere.inputs hd,
            hhere.required, hg.requiredPolicies_policy hd]
          simp only [Attempt.ok_bind, hrequired, hconclude]

end Policies

section Verdicts

variable {start : String}

/-- Graphs that concur on every policy within reach of a declared one give it the same verdict, or
the same fault. -/
theorem IsDrawnFrom.run_eq (hg : g.IsDrawnFrom cfg p) (hh : h.HasTreesOf cfg p)
    (hconcurs : ∀ d ∈ p.documents, Relation.ReflTransGen g.Requires start d.policy →
      g.Concurs h p inputs inputs' d)
    (hstart : g.IsInternal start)
    (hnode : h.node? (.str (Node.policyKey start)) = g.node? (.str (Node.policyKey start)))
    (hnodes : p.documents.length ≤ h.nodes.length) (settings : Settings) :
    h.run settings inputs' (.str start) = g.run settings inputs (.str start) := by
  obtain ⟨d, hd, rfl⟩ := List.mem_map.mp (hg.isInternal_iff.mp hstart)
  have hfuel : p.documents.length < g.nodes.length + 1 + ([] : List String).length :=
    Nat.lt_succ_of_le hg.length_documents_le
  have hfuel' : p.documents.length < h.nodes.length + 1 + ([] : List String).length :=
    Nat.lt_succ_of_le hnodes
  have heval := hg.evaluatePolicyTo_eq hh hconcurs hd (isStackFrom_nil hstart) hfuel hfuel'
  have hdeclared : g.declaredPolicy (.str d.policy) =
      .ok (Plan.policyNode cfg d (p.rootsOf d.policy)) := by
    rw [declaredPolicy, policyNode?, Node.policyId_str, hg.node?_policy hd]
    simp only [Plan.policyNode_isExternal]
    rfl
  have hdeclared' : h.declaredPolicy (.str d.policy) = g.declaredPolicy (.str d.policy) := by
    rw [declaredPolicy, declaredPolicy, policyNode?, policyNode?, Node.policyId_str, hnode]
  have hverdict : h.verdict settings inputs' (.str d.policy) =
      g.verdict settings inputs (.str d.policy) := by
    rw [verdict, verdict, hdeclared', hdeclared, Attempt.ok_bind, Attempt.ok_bind]
    simp only [evaluatePolicy, List.map_nil] at heval ⊢
    rw [heval]
  rw [run, run, hverdict]

/-- Whether a comparison of a policy asks for a variable. -/
def AsksFor (g : PolicyGraph) (a x : String) : Prop :=
  ∃ n ∈ g.nodes, n.isLeaf = true ∧ n.policy = .str a ∧ n.subject = .str x

theorem IsDrawnFrom.asksFor (hg : g.IsDrawnFrom cfg p) {policy : String} {r : Rule}
    (hr : (policy, r) ∈ p.placed) (hl : r.head.operator.isLogical = false) :
    g.AsksFor policy r.head.subject :=
  ⟨Plan.conditionNode cfg policy r.head, (node?_spec (hg.node?_condition hr)).1, by simp [hl],
    Plan.conditionNode_policy .., Plan.conditionNode_subject ..⟩

/-- Facts that neither a declared policy nor the policies that it requires mention have no
influence on it: inputs that agree on what these ask for lead to the same verdict with all its
fields, or to the same fault. -/
theorem evaluate_of_agreeing_inputs (hg : g.IsCompiled cfg) {a : String} (ha : g.IsInternal a)
    {inputs inputs' : Json} {es es' : Entries Json} {q q' : Query}
    (hes : Fault.mappingOrEmpty inputs = .ok es) (hq : Query.check (.str a) es = .ok q)
    (hes' : Fault.mappingOrEmpty inputs' = .ok es') (hq' : Query.check (.str a) es' = .ok q')
    (hagree : ∀ b x, Relation.ReflTransGen g.Requires a b → g.IsInternal b → g.AsksFor b x →
      es'.get? x = es.get? x) (settings : Settings) :
    g.evaluate settings (.str a) inputs' = g.evaluate settings (.str a) inputs := by
  obtain ⟨p, hp⟩ := hg.exists_isDrawnFrom
  obtain ⟨hpolicy, hread⟩ := Query.check_eq_ok hq
  obtain ⟨hpolicy', hread'⟩ := Query.check_eq_ok hq'
  have hconcurs : ∀ d ∈ p.documents, Relation.ReflTransGen g.Requires a d.policy →
      g.Concurs g p q.inputs q'.inputs d := by
    refine fun d hd hreach => ⟨rfl, rfl, fun _ _ => rfl, fun r hr hl => ?_⟩
    have hget := hagree d.policy r.head.subject hreach
      (hp.isInternal_iff.mpr (List.mem_map_of_mem hd)) (hp.asksFor hr hl)
    rw [← Schema.lookup_of_inputEntries hread, ← Schema.lookup_of_inputEntries hread',
      Entries.lookup_eq, Entries.lookup_eq] at hget
    rw [inputFor, inputFor, hget]
  rw [evaluate_eq_answer settings g hes hq, evaluate_eq_answer settings g hes' hq', answer, answer,
    ← hpolicy, ← hpolicy']
  exact hp.run_eq hp.hasTreesOf hconcurs ha rfl hp.length_documents_le settings

end Verdicts

section Witness

theorem IsDrawnFrom.eq_of_asksFor_lone (h : g.IsDrawnFrom .standard lonePlan) {a x : String}
    (hx : g.AsksFor a x) : x = "status" := by
  obtain ⟨n, hn, hleaf, -, hsubject⟩ := hx
  obtain ⟨q, hq, -, rfl⟩ := h.eq_of_isLeaf hn hleaf
  have hall : ∀ q ∈ lonePlan.placed, q.2.head.subject = "status" := by decide +kernel
  rw [Plan.conditionNode_subject, hall q hq] at hsubject
  exact (Json.str.inj hsubject).symm

/-- An age has no influence on the lone policy, which asks for a status. -/
theorem evaluate_of_agreeing_inputs_lone : ∃ g : PolicyGraph, g.IsCompiled .standard ∧
    g.IsInternal "p" ∧ (∀ b x, Relation.ReflTransGen g.Requires "p" b → g.IsInternal b →
      g.AsksFor b x → (Entries.ofFields [("age", Json.int 30), ("status", .str "no")]).get? x =
        (Entries.ofFields [("status", Json.str "no")]).get? x) ∧
    g.evaluate .standard (.str "p") (.obj [("age", .int 30), ("status", .str "no")]) =
      g.evaluate .standard (.str "p") (.obj [("status", .str "no")]) := by
  obtain ⟨g, hvalid, hg, h⟩ := exists_lone
  have hcompiled : g.IsCompiled .standard := ⟨lone, hvalid, hg⟩
  have hp : g.IsInternal "p" := h.isInternal_iff.mpr List.mem_cons_self
  have hagree : ∀ b x, Relation.ReflTransGen g.Requires "p" b → g.IsInternal b →
      g.AsksFor b x → (Entries.ofFields [("age", Json.int 30), ("status", .str "no")]).get? x =
        (Entries.ofFields [("status", Json.str "no")]).get? x := by
    intro b x _ _ hx
    rw [h.eq_of_asksFor_lone hx]
    rfl
  have hes : Fault.mappingOrEmpty (.obj [("status", .str "no")]) =
      .ok (Entries.ofFields [("status", .str "no")]) := rfl
  have hes' : Fault.mappingOrEmpty (.obj [("age", .int 30), ("status", .str "no")]) =
      .ok (Entries.ofFields [("age", .int 30), ("status", .str "no")]) := rfl
  exact ⟨g, hcompiled, hp, hagree,
    evaluate_of_agreeing_inputs hcompiled hp hes rfl hes' rfl hagree .standard⟩

end Witness

end PolicyGraph
end Eligibility
