import Eligibility.Proofs.Circularities
import Eligibility.Proofs.Clashes
import Eligibility.Proofs.PassFaults
import Eligibility.Proofs.RequirementChains
import Eligibility.Proofs.Verdicts
/-!
# Operations on the graphs of rule sets

**Trees.**  The conditions of a compiled graph are those of rules, which have finite depth: no
way down from any node leads to a circle.

**Ends.**  A compiled graph has the properties that its operations ask for, so that each of
them gives a result or ends in a fault that is reported: a policy that is unknown, that
contradicts itself or that requires itself.

**Results.**
* `IsDrawnFrom.endsWithin`: every way down a compiled graph ends.
* `IsDrawnFrom.precheck_reported`, `IsDrawnFrom.evaluate_reported`,
  `IsDrawnFrom.scoreOf_reported`: what the operations on a policy can end in.
* `IsDrawnFrom.exists_detect`: detection gives a report, whichever passes run.
-/

namespace Eligibility
open Attempt

namespace PolicyGraph

variable {cfg : Settings} {g : PolicyGraph} {p : Plan}

/-- Whether an attempt gives a value or a fault that is reported. -/
def EndsProperly {α : Type} (x : Except Fault α) : Prop := FailsOnly (·.isReported = true) x

section Trees

variable {policy : String} {r : Rule}

/-- The nodes of the tree of a rule, with its depth. -/
def Reach.ofTree (cfg : Settings) (policy : String) (r : Rule) : Reach where
  depth := r.depth
  nodes := r.walk.map fun t => Plan.conditionNode cfg policy t.head

theorem foldl_depth (rs : List Rule) : (rs.map Rule.depth).foldl Nat.max 0 = Rule.depthOf rs := by
  change (rs.map Rule.depth).foldl max 0 = _
  induction rs with
  | nil => rfl
  | cons r rs ih =>
      rw [List.map_cons, List.foldl_cons, Nat.max_comm, List.foldl_assoc, ih, Rule.depthOf]

/-- A traversal of items that stand for others, in their order. -/
theorem mapM_eq_ok_map_of_forall₂ {α β γ ε : Type} {R : α → β → Prop} {f : β → Except ε γ}
    {k : α → γ} {xs : List α} {ys : List β} (h : List.Forall₂ R xs ys)
    (hf : ∀ x ∈ xs, ∀ y, R x y → f y = .ok (k x)) : ys.mapM f = .ok (xs.map k) := by
  rw [mapM_eq_ok, List.forall₂_map_right_iff]
  refine (((List.forall₂_and_left (p := fun x => x ∈ xs) _ ys).mpr
    ⟨fun x hx => hx, h⟩).imp ?_).flip
  exact fun x y hxy => hf x hxy.1 y hxy.2

/-- The tree of a rule is the rule above the trees of its children. -/
theorem reachAbove_ofTree (cfg : Settings) (policy : String) (r : Rule) :
    reachAbove (Plan.conditionNode cfg policy r.head) (r.children.map (Reach.ofTree cfg policy)) =
      Reach.ofTree cfg policy r := by
  obtain ⟨h, cs⟩ := r
  rw [Rule.children_node, reachAbove, Reach.ofTree, Rule.depth, Rule.walk, Rule.walkAll_eq_flatMap,
    List.map_cons, List.map_flatMap, List.flatMap_map, List.map_map, ← foldl_depth]
  rfl

/-- Below a node of a compiled graph stands the tree of its rule. -/
theorem HasTreesOf.reachTo_eq (h : g.HasTreesOf cfg p) (hr : (policy, r) ∈ p.placed)
    {levels : Nat} (hdepth : r.depth ≤ levels) :
    g.reachTo levels (Plan.conditionNode cfg policy r.head) = .ok (Reach.ofTree cfg policy r) := by
  induction levels generalizing r with
  | zero =>
      obtain ⟨head, cs⟩ := r
      simp [Rule.depth] at hdepth
  | succ levels ih =>
      obtain ⟨bs, hbs, hall⟩ := h.branches hr
      have hbs : g.ruleChildren (Plan.conditionNode cfg policy r.head).id = .ok bs := hbs
      have hbelow : bs.mapM (fun b => g.reachTo levels b.node) =
          .ok (r.children.map (Reach.ofTree cfg policy)) := by
        refine mapM_eq_ok_map_of_forall₂ hall fun c hc b hb => ?_
        rw [hb.1]
        exact ih (Plan.placed_child hr hc) (depth_le_of_mem_children hdepth hc)
      rw [reachTo, hbs, ok_bind, hbelow, ok_bind, reachAbove_ofTree]
      rfl

/-- The nodes below a node of a compiled graph are found, within the depth of its tree. -/
theorem HasTreesOf.exists_reachTo (h : g.HasTreesOf cfg p) (hr : (policy, r) ∈ p.placed)
    {levels : Nat} (hdepth : r.depth ≤ levels) :
    ∃ x, g.reachTo levels (Plan.conditionNode cfg policy r.head) = .ok x :=
  ⟨_, h.reachTo_eq hr hdepth⟩

/-- Every way down from a node of a compiled graph ends. -/
theorem IsDrawnFrom.endsWithin (h : g.IsDrawnFrom cfg p) (n : Node) :
    EndsWithin g.HasOperand (g.depthBound + 1) n := by
  rintro m ⟨bs, hbs, b, hb, rfl⟩
  obtain ⟨q, hq, hnode⟩ := h.eq_of_condition (mem_of_ruleChildren hbs b hb)
    (kind_of_ruleChildren hbs b hb)
  obtain ⟨x, hx⟩ := h.hasTreesOf.exists_reachTo hq (h.hasTreesOf.depth_le_depthBound hq)
  exact hnode ▸ endsWithin_of_reachTo hx

/-- No way down from a node of a compiled graph leads to a circle. -/
theorem IsDrawnFrom.not_leadsToCircle (h : g.IsDrawnFrom cfg p) (n : Node) :
    ¬ LeadsToCircle g.HasOperand n := (h.endsWithin n).not_leadsToCircle

end Trees

section Policies

variable {a : String}

/-- A policy that is only mentioned has no rules. -/
theorem IsDrawnFrom.policyRoots_undeclared (h : g.IsDrawnFrom cfg p)
    (ha : a ∉ p.documents.map Document.policy)
    (hnode : g.hasNode (.str (Node.policyKey a)) = true) : g.policyRoots (.str a) = .ok [] := by
  have hnone : (g.edges.filter fun e => decide (e.relation = .dependsOn) &&
      e.source.alike (.str (Node.policyKey a))) = [] := by
    refine List.filter_eq_nil_iff.mpr fun e he hboth => ?_
    obtain ⟨hrelation, hsource⟩ := Bool.and_eq_true_iff.mp hboth
    rw [Json.alike_str_right] at hsource
    have hrelation : e.relation = .dependsOn := of_decide_eq_true hrelation
    rcases h.source_of_isDependency he (by rw [hrelation]; rfl) with
      ⟨d, hd, hsd⟩ | ⟨q, -, hsq⟩
    · have hkey := Json.str.inj (hsource.symm.trans hsd)
      exact ha (Node.policyKey_inj.mp hkey ▸ List.mem_map_of_mem hd)
    · exact Node.policyKey_ne_conditionKey _ _ (Json.str.inj (hsource.symm.trans hsq))
  rw [policyRoots, Node.policyId_str, ruleChildren_eq_nil hnode hnone]

/-- A policy that is only mentioned does not contradict itself. -/
theorem IsDrawnFrom.precheck_undeclared (h : g.IsDrawnFrom cfg p)
    (ha : a ∉ p.documents.map Document.policy)
    (hnode : g.hasNode (.str (Node.policyKey a)) = true) : g.precheck (.str a) = .ok () := by
  have hpaths : g.paths (.str a) = .ok [] := by
    rw [paths, rootDemands, h.policyRoots_undeclared ha hnode]
    rfl
  rw [precheck, contradiction?, hpaths]
  rfl

/-- The check of a policy passes, or reports a contradiction. -/
theorem IsDrawnFrom.precheck_reported (h : g.IsDrawnFrom cfg p) (ha : g.HasPolicy a) :
    EndsProperly (g.precheck (.str a)) := by
  obtain ⟨n, hn, -⟩ := ha
  by_cases hdeclared : a ∈ p.documents.map Document.policy
  · obtain ⟨d, hd, rfl⟩ := List.mem_map.mp hdeclared
    rcases h.precheck_cases hd with ⟨hok, -⟩ | ⟨_, -, _, -, -, _, _, _, -, -, -, herror⟩
    · rw [hok]
      exact .ok ()
    · rw [herror]
      exact .error rfl
  · rw [h.precheck_undeclared hdeclared (hasNode_of_node? hn)]
    exact .ok ()

end Policies

section Evaluation

variable {inputs : Inputs}

/-- An evaluation that gives a settled outcome or a fault that is reported. -/
structure EndsSettled (x : Except Fault Evaluated) : Prop where
  settled : ∀ e, x = .ok e → e.outcome.IsSettled
  proper : EndsProperly x

/-- A policy whose required policies end settled does so itself. -/
theorem IsDrawnFrom.endsSettled_required (h : g.IsDrawnFrom cfg p) {d : Document}
    (hd : d ∈ p.documents) {own : List Evaluated} (hown : ∀ e ∈ own, e.outcome.IsSettled)
    {names : List Name} {f : Name → Except Fault Evaluated}
    (hnames : ∀ name ∈ names, EndsSettled (f name)) :
    EndsSettled (names.mapM f >>= fun required =>
      g.concludePolicy (Plan.policyNode cfg d (p.rootsOf d.policy)) (own ++ required)) := by
  have hconclude : ∀ required, names.mapM f = .ok required →
      ∃ e, g.concludePolicy (Plan.policyNode cfg d (p.rootsOf d.policy)) (own ++ required) =
        .ok e ∧ e.outcome.IsSettled := by
    intro required hok
    have hall : ∀ e ∈ own ++ required, e.outcome.IsSettled := by
      refine List.forall_mem_append.mpr ⟨hown, fun e he => ?_⟩
      obtain ⟨name, hname, hf⟩ := exists_of_mem_mapM hok he
      exact (hnames name hname).settled e hf
    obtain ⟨e, he, houtcome⟩ := exists_concludePolicy h hd hall
    refine ⟨e, he, houtcome ▸ Outcome.isSettled_conjunction fun o ho => ?_⟩
    obtain ⟨x, hx, rfl⟩ := List.mem_map.mp ho
    exact hall x hx
  constructor
  · intro e he
    obtain ⟨required, hok, he⟩ := bind_eq_ok.mp he
    obtain ⟨e', he', hsettled⟩ := hconclude required hok
    exact Except.ok.inj (he'.symm.trans he) ▸ hsettled
  · refine .bind (.mapM fun name hname => (hnames name hname).proper) fun required hok => ?_
    obtain ⟨e, he, -⟩ := hconclude required hok
    rw [he]
    exact .ok e

/-- With inputs in range, the evaluation of a policy on a stack gives a result or a fault that is
reported. -/
theorem IsDrawnFrom.endsSettled_evaluatePolicyTo (h : g.IsDrawnFrom cfg p)
    (hin : Rule.InRange inputs) {start : String} {fuel : Nat} {stack : List String} {d : Document}
    (hd : d ∈ p.documents) (hstack : g.IsStackFrom start stack d.policy)
    (hfuel : p.documents.length < fuel + stack.length) :
    EndsSettled (g.evaluatePolicyTo inputs fuel (stack.map .str)
      (Plan.policyNode cfg d (p.rootsOf d.policy))) := by
  induction fuel generalizing stack d with
  | zero =>
      have := hstack.length_le h
      omega
  | succ fuel ih =>
      rw [evaluatePolicyTo_succ, Plan.policyNode_policy, Json.among_strs]
      by_cases hmem : d.policy ∈ stack
      · obtain ⟨cycle, clauses, hfault, -⟩ := h.exists_circularFault hstack hmem
        rw [if_pos (by simpa using hmem), hfault]
        exact ⟨nofun, .error rfl⟩
      obtain ⟨own, hown, hownSettled⟩ := h.exists_evaluateRoots hin hd
      rw [if_neg (by simpa using hmem), hown, h.requiredPolicies_policy hd]
      have hrest : EndsSettled (((RuleSet.firstTexts [] d.prerequisites).map Json.str).mapM
          (g.evaluateRequired inputs fuel (stack.map .str) (.str d.policy)) >>= fun required =>
            g.concludePolicy (Plan.policyNode cfg d (p.rootsOf d.policy)) (own ++ required)) := by
        refine h.endsSettled_required hd hownSettled fun name hname => ?_
        obtain ⟨t, hfirst, rfl⟩ := List.mem_map.mp hname
        obtain ⟨ht, -⟩ := Plan.mem_firstTexts.mp hfirst
        rcases evaluateRequired_cases h inputs fuel stack hd ht with
          ⟨e, he, rfl, hrest⟩ | ⟨-, x, hx, houtcome⟩
        · rw [hrest]
          refine ih he (h.push_required hd hstack hmem he ht) ?_
          rw [List.length_append, List.length_singleton]
          omega
        · rw [hx]
          refine ⟨fun e he => ?_, .ok x⟩
          obtain rfl := Except.ok.inj he
          exact houtcome ▸ isSettled_unknownPolicy t
      constructor
      · intro e he
        obtain ⟨_, -, he⟩ := bind_eq_ok.mp he
        exact hrest.settled e he
      · exact (h.precheck_reported (h.hasPolicy hd)).bind fun _ _ => hrest.proper

/-- A policy is declared, or reported as unknown. -/
theorem declaredPolicy_reported (g : PolicyGraph) (policy : Name) :
    EndsProperly (g.declaredPolicy policy) := by
  unfold declaredPolicy
  split
  · exact .error rfl
  · split
    · exact .error rfl
    · exact .ok _

/-- The verdict on a policy, if inputs are in range, or a fault that is reported. -/
theorem IsDrawnFrom.verdict_reported (h : g.IsDrawnFrom cfg p) (hin : Rule.InRange inputs)
    (settings : Settings) (a : String) : EndsProperly (g.verdict settings inputs (.str a)) := by
  refine (declaredPolicy_reported g (.str a)).bind fun n hn => ?_
  obtain ⟨d, hd, rfl, rfl⟩ := h.exists_document hn
  have hstack := isStackFrom_nil (h.isInternal_iff.mpr (List.mem_map_of_mem hd))
  have hfuel : p.documents.length < g.nodes.length + 1 + ([] : List String).length :=
    Nat.lt_succ_of_le h.length_documents_le
  exact (h.endsSettled_evaluatePolicyTo hin hd hstack hfuel).proper.bind fun _ _ => .ok _

/-- An evaluation against inputs in range gives a verdict or a fault that is reported. -/
theorem IsDrawnFrom.evaluate_reported (h : g.IsDrawnFrom cfg p) (settings : Settings)
    {policy inputs : Json} {es : Entries Json} (hes : Fault.mappingOrEmpty inputs = .ok es)
    (hin : ∀ q, Query.check policy es = .ok q → Rule.InRange q.inputs) :
    EndsProperly (g.evaluate settings policy inputs).outcome := by
  cases hq : Query.check policy es with
  | flawed fs =>
      rw [evaluate, hes]
      simp only [hq, answerChecked]
      exact .error rfl
  | ok q =>
      rw [evaluate_eq_answer settings g hes hq, answer, run_outcome]
      exact h.verdict_reported (hin q hq) settings q.policy

end Evaluation

section Scores

variable {round : Rat → Rat} {reader : Option ReadabilityReader}

/-- A reader of texts that says nothing or a number. -/
def IsNumeric (reader : Option ReadabilityReader) : Prop :=
  ∀ read ∈ reader, ∀ s : String, read (.str s) = .null ∨ ∃ x, Fault.number (read (.str s)) = .ok x

theorem mem_nodesOfClause (clause : Name) {n : Node} (hn : n ∈ g.nodesOfClause clause) :
    n ∈ g.nodes := by
  obtain ⟨q, hq, hnq⟩ := Grouping.mem_of_mem_members hn
  rw [g.indexed] at hq
  exact (Grouping.areOf_ofList _ _ q hq).2.1.subset hnq

/-- What is said of the readability of a clause node is nothing or a number. -/
theorem exists_number_of_statedReadability (hreader : IsNumeric reader) (policy : String)
    (c : Clause) : statedReadability reader (Plan.clauseNode policy c) = .null ∨
      ∃ x, Fault.number (statedReadability reader (Plan.clauseNode policy c)) = .ok x := by
  have hown : (Plan.clauseNode policy c).get "readability" = Json.float? c.readability := by
    simp [Node.get, Node.property?, Plan.clauseNode, Entries.get?_ofFields, List.lookup_cons,
      Property.toJson]
  have htext : (Plan.clauseNode policy c).get "text" = .str c.text := by
    simp [Node.get, Node.property?, Plan.clauseNode, Entries.get?_ofFields, List.lookup_cons,
      Property.toJson]
  have hsaid : Json.float? c.readability = .null ∨
      ∃ x, Fault.number (Json.float? c.readability) = .ok x := by
    cases c.readability with
    | none => exact .inl rfl
    | some x => exact .inr ⟨x, rfl⟩
  unfold statedReadability
  rw [hown, htext]
  cases reader with
  | none => exact hsaid
  | some read =>
      dsimp only
      split
      · exact hreader read rfl c.text
      · exact hsaid

/-- The readability of a clause of a compiled graph is found. -/
theorem IsDrawnFrom.clauseReadability_reported (h : g.IsDrawnFrom cfg p)
    (hreader : IsNumeric reader) (weights : Settings) {n : Node} (hn : n ∈ g.nodes)
    (hkind : n.kind = .clause) : EndsProperly (clauseReadability weights reader n) := by
  obtain ⟨d, -, c, -, rfl⟩ := h.eq_of_clause hn hkind
  unfold clauseReadability
  split
  · exact .ok _
  · next hnull =>
    rcases exists_number_of_statedReadability hreader d.policy c with hj | ⟨x, hx⟩
    · exact absurd hj hnull
    · rw [hx]
      exact .ok _

/-- The clauses that are found of a policy are clauses of the graph. -/
theorem mem_of_surveyTrees {policy : Name} {x : List Reach × List Node}
    (hx : g.surveyTrees policy = .ok x) : ∀ n ∈ x.2, n ∈ g.nodes ∧ n.kind = .clause := by
  obtain ⟨rs, -, hx⟩ := bind_eq_ok.mp hx
  obtain ⟨ns, hns, hx⟩ := bind_eq_ok.mp hx
  obtain rfl := Except.ok.inj hx
  obtain ⟨cs, -, rfl⟩ := map_eq_ok.mp hns
  intro n hn
  obtain ⟨c, -, hn⟩ := List.mem_flatMap.mp hn
  obtain ⟨hn, hkind⟩ := List.mem_filter.mp hn
  exact ⟨mem_nodesOfClause c hn, of_decide_eq_true hkind⟩

/-- The trees and the clauses of a declared policy are found. -/
theorem IsDrawnFrom.surveyTrees_reported (h : g.IsDrawnFrom cfg p) {d : Document}
    (hd : d ∈ p.documents) : EndsProperly (g.surveyTrees (.str d.policy)) := by
  obtain ⟨bs, hbs, hall⟩ := h.policyRoots_policy hd
  obtain ⟨cs, hcs⟩ := h.clausesOf_policy (hasNode_of_node? (h.node?_policy hd))
  rw [surveyTrees, reachOf, hbs, ok_bind, clauseNodesOf, hcs]
  refine .bind (.mapM fun b hb => ?_) fun _ _ => .ok _
  obtain ⟨r, hr, hnode, -⟩ := exists_left hall hb
  have hplaced := Plan.placed_root hd hr
  obtain ⟨x, hx⟩ := h.hasTreesOf.exists_reachTo hplaced (h.hasTreesOf.depth_le_depthBound hplaced)
  rw [reach, hnode, hx]
  exact .ok x

/-- The links of a declared policy are found. -/
theorem IsDrawnFrom.surveyLinks_reported (h : g.IsDrawnFrom cfg p) {d : Document}
    (hd : d ∈ p.documents) : EndsProperly (g.surveyLinks (.str d.policy)) := by
  have hnode := h.node?_policy hd
  obtain ⟨cs, hcs⟩ := h.clausesOf_policy (hasNode_of_node? hnode)
  rw [surveyLinks, linkCount, Node.policyId_str, outEdges, node_eq_ok.mpr hnode, hcs]
  exact .ok _

theorem scoredPolicies_str (a : String) : g.scoredPolicies (.str a) =
    (g.declaredPolicy (.str a)).map fun _ => [.str a] := by
  simp only [scoredPolicies, declaredPolicy]
  cases g.policyNode? (.str a) with
  | none => rfl
  | some n =>
      dsimp only
      split <;> rfl

/-- The policies to score are declared, or the one that is named is reported as unknown. -/
theorem IsDrawnFrom.scoredPolicies_reported (h : g.IsDrawnFrom cfg p) (policy : Option String) :
    EndsProperly (g.scoredPolicies (Json.str? policy)) ∧
      ∀ policies, g.scoredPolicies (Json.str? policy) = .ok policies →
        ∀ q ∈ policies, ∃ d ∈ p.documents, q = .str d.policy := by
  cases policy with
  | none =>
      refine ⟨.ok _, fun policies hpolicies q hq => h.exists_of_mem_policyIds ?_⟩
      exact Except.ok.inj hpolicies ▸ hq
  | some a =>
      rw [Json.str?, scoredPolicies_str]
      refine ⟨(declaredPolicy_reported g (.str a)).map, fun policies hpolicies q hq => ?_⟩
      obtain ⟨n, hn, rfl⟩ := map_eq_ok.mp hpolicies
      obtain ⟨d, hd, rfl, -⟩ := h.exists_document hn
      exact ⟨d, hd, List.mem_singleton.mp hq⟩

/-- Declared policies are measured. -/
theorem IsDrawnFrom.measure_reported (h : g.IsDrawnFrom cfg p) (hreader : IsNumeric reader)
    (weights : Settings) {policies : List Name}
    (hdeclared : ∀ q ∈ policies, ∃ d ∈ p.documents, q = .str d.policy) :
    EndsProperly (g.measure round weights reader policies) := by
  refine .bind (.mapM fun q hq => ?_) fun trees htrees => .bind (.mapM fun q hq => ?_)
    fun links _ => .bind (.mapM fun n hn => ?_) fun _ _ => .ok _
  · obtain ⟨d, hd, rfl⟩ := hdeclared q hq
    exact h.surveyTrees_reported hd
  · obtain ⟨d, hd, rfl⟩ := hdeclared q hq
    exact h.surveyLinks_reported hd
  · obtain ⟨x, hx, hn⟩ := List.mem_flatMap.mp hn
    obtain ⟨q, -, hq⟩ := exists_of_mem_mapM htrees hx
    obtain ⟨hn, hkind⟩ := mem_of_surveyTrees hq n hn
    exact h.clauseReadability_reported hreader weights hn hkind

/-- A policy, or all of them, get a score, or the policy is reported as unknown. -/
theorem IsDrawnFrom.scoreOf_reported (h : g.IsDrawnFrom cfg p) (hreader : IsNumeric reader)
    (weights : Settings) (policy : Option String) :
    EndsProperly (scoreOf round weights reader g (Json.str? policy)) := by
  obtain ⟨hscored, hdeclared⟩ := h.scoredPolicies_reported policy
  exact hscored.bind fun policies hpolicies =>
    (h.measure_reported hreader weights (hdeclared policies hpolicies)).bind fun _ _ => .ok _

end Scores

section Detection

variable {table : List Impossibility}

/-- Detection over a compiled graph gives a report, whichever passes run and whenever it is
stopped. -/
theorem IsDrawnFrom.exists_detect (h : g.IsDrawnFrom cfg p) (hnamed : AreNamed p.documents)
    (htable : ∀ i ∈ table, i.IsFitting) (passes : Option (List ConflictKind))
    (stopAfter : Option Nat) : ∃ r, (g.detect table passes stopAfter).outcome = .ok r := by
  have hresults : ∀ ks, ∃ rs, g.results table ks = .ok rs := by
    intro ks
    obtain ⟨rs, hrs, -⟩ := exists_mapM (R := fun _ _ => True) fun k _ => by
      obtain ⟨r, hr, -⟩ := h.isLegible.exists_runPass (h.passIsSound hnamed htable k)
      exact ⟨r, hr, trivial⟩
    exact ⟨rs, hrs⟩
  rw [outcome_detect]
  cases stopAfter with
  | none =>
      obtain ⟨rs, hrs⟩ := hresults (selectedPasses passes)
      exact ⟨_, by rw [outcome_runPasses, hrs]; rfl⟩
  | some n =>
      obtain ⟨rs, hrs⟩ := hresults ((selectedPasses passes).take n)
      exact ⟨_, by rw [outcome_runPasses_some, hrs]; rfl⟩

end Detection

end PolicyGraph
end Eligibility
