import Mathlib.Data.List.Chain
import Mathlib.Logic.Relation
import Eligibility.Proofs.Refinement
/-!
# Policies that require each other

**Requirements.**  The edges between policies that require each other form a graph of
their own.  Evaluation follows it with a stack of the policies on the way; the
stack is a chain of requirements without repetition, so that it cannot outgrow the
policies of the graph.

**Circles.**  A policy that stands on the stack closes a circle, and is the only
thing that keeps an evaluation from a result where no policy contradicts itself.

**Results.**
* `requires_iff`: the requirements of a compiled graph are those of its documents.
* `evaluatePolicyTo_cases`: evaluation gives a result below which there is no circle,
  or reports a circle.
* `evaluate_circular`: when a policy is reported as circular.
-/

namespace Eligibility
namespace PolicyGraph

section Circles

/-- Whether a policy is declared in a graph. -/
def IsInternal (g : PolicyGraph) (a : String) : Prop := Json.str a ∈ g.policyIds false

/-- Whether an edge says that one policy requires another one. -/
def Requires (g : PolicyGraph) (a b : String) : Prop :=
  ∃ e ∈ g.edges, e.relation = .requires ∧ e.source = .str (Node.policyKey a) ∧
    e.target = .str (Node.policyKey b)

/-- Whether one declared policy requires another one. -/
def RequiresInternal (g : PolicyGraph) (a b : String) : Prop :=
  g.IsInternal a ∧ g.IsInternal b ∧ g.Requires a b

/-- Whether a policy requires itself, directly or over other declared policies. -/
def IsCircular (g : PolicyGraph) (a : String) : Prop := Relation.TransGen g.RequiresInternal a a

/-- A closed walk along requirements that visits no policy twice before it ends where it began,
all of it within reach of a policy. -/
structure IsCircleFrom (g : PolicyGraph) (start : String) (cycle : List String) : Prop where
  length : 2 ≤ cycle.length
  edges : cycle.IsChain g.Requires
  closed : cycle.head? = cycle.getLast?
  distinct : cycle.dropLast.Nodup
  internal : ∀ a ∈ cycle, g.IsInternal a
  reachable : ∀ a ∈ cycle, Relation.ReflTransGen g.Requires start a

end Circles

section Edges

variable {cfg : Settings} {g : PolicyGraph} {p : Plan}

theorem IsDrawnFrom.isInternal_iff (h : g.IsDrawnFrom cfg p) {a : String} :
    g.IsInternal a ↔ a ∈ p.documents.map Document.policy := by
  simp only [IsInternal, policyIds, policies, nodesOfKind, List.mem_map, List.mem_filter,
    decide_eq_true_eq, Bool.false_or, Bool.not_eq_true']
  constructor
  · rintro ⟨n, ⟨⟨hn, hkind⟩, hext⟩, hpolicy⟩
    rcases h.eq_of_policy hn hkind with ⟨d, hd, rfl⟩ | ⟨d, -, t, -, rfl⟩
    · exact ⟨d, hd, by simpa using hpolicy⟩
    · simp at hext
  · rintro ⟨d, hd, rfl⟩
    have hn := (node?_spec (h.node?_policy hd)).1
    exact ⟨_, ⟨⟨hn, rfl⟩, Plan.policyNode_isExternal cfg d _⟩, Plan.policyNode_policy cfg d _⟩

/-- The requirements of a compiled graph are those that its documents declare. -/
theorem IsDrawnFrom.requires_iff (h : g.IsDrawnFrom cfg p) {a b : String} :
    g.Requires a b ↔ ∃ d ∈ p.documents, d.policy = a ∧ b ∈ d.prerequisites := by
  constructor
  · rintro ⟨e, he, hr, hs, ht⟩
    obtain ⟨n, x, hx, rfl⟩ := h.mem_edges.mp he
    have hs : x.source = Node.policyKey a := by simpa [Draft.toEdge] using hs
    have ht : x.target = Node.policyKey b := by simpa [Draft.toEdge] using ht
    have hr : x.relation = .requires := hr
    rcases Plan.mem_drafts.mp (Plan.mem_drawn.mp (List.mem_of_getElem? hx)) with
      ⟨d, -, c, -, rfl⟩ | ⟨d, -, hl⟩ | ⟨q, -, ho | hl⟩ | ⟨d, hd, hm⟩
    · cases hr
    · obtain ⟨c, -, rfl⟩ := List.mem_map.mp hl
      cases hr
    · have := Plan.not_isRequirementOf_ownDrafts (k := a) ho
      simp [Plan.isRequirementOf, hr, hs] at this
    · obtain ⟨c, -, rfl⟩ := List.mem_map.mp hl
      cases hr
    · rcases List.mem_append.mp hm with hm | hm
      · obtain ⟨t, ht', rfl⟩ := List.mem_map.mp hm
        obtain rfl : t = b := by simpa using ht
        exact ⟨d, hd, by simpa using hs, (Plan.mem_firstTexts.mp ht').1⟩
      · obtain ⟨t, -, rfl⟩ := List.mem_map.mp hm
        cases hr
  · rintro ⟨d, hd, rfl, hb⟩
    have hdraft : Plan.requirement d.policy b ∈ p.drafts := by
      refine Plan.mem_drafts.mpr (.inr (.inr (.inr ⟨d, hd, List.mem_append_left _ ?_⟩)))
      exact List.mem_map.mpr ⟨b, Plan.mem_firstTexts.mpr ⟨hb, by simp⟩, rfl⟩
    obtain ⟨n, he⟩ := h.exists_edge hdraft
    exact ⟨_, he, rfl, rfl, rfl⟩

theorem IsDrawnFrom.isInternal_of_requires (h : g.IsDrawnFrom cfg p) {a b : String}
    (hab : g.Requires a b) : g.IsInternal a := by
  obtain ⟨d, hd, rfl, -⟩ := h.requires_iff.mp hab
  exact h.isInternal_iff.mpr (List.mem_map_of_mem hd)

/-- There are no more declared policies than nodes. -/
theorem IsDrawnFrom.length_documents_le (h : g.IsDrawnFrom cfg p) :
    p.documents.length ≤ g.nodes.length := by
  have hnodup : (p.documents.map fun d => Plan.policyNode cfg d (p.rootsOf d.policy)).Nodup := by
    have hpolicies := h.sound.policies
    rw [List.Nodup, List.pairwise_map] at hpolicies ⊢
    refine hpolicies.imp fun hne he => hne ?_
    simpa [Plan.policyNode] using congrArg Node.id he
  have hsub : (p.documents.map fun d => Plan.policyNode cfg d (p.rootsOf d.policy)) ⊆ g.nodes := by
    intro n hn
    obtain ⟨d, hd, rfl⟩ := List.mem_map.mp hn
    exact (node?_spec (h.node?_policy hd)).1
  simpa using (List.subperm_of_subset hnodup hsub).length_le

end Edges

section Stack

variable {cfg : Settings} {g : PolicyGraph} {p : Plan}

/-- The policies of a stack, of which every one requires the next one, and the policy that is
evaluated on top of them: all are declared and within reach of a policy. -/
structure IsStackFrom (g : PolicyGraph) (start : String) (stack : List String) (top : String) :
    Prop where
  distinct : stack.Nodup
  edges : (stack ++ [top]).IsChain g.Requires
  internal : ∀ a ∈ stack ++ [top], g.IsInternal a
  reachable : ∀ a ∈ stack ++ [top], Relation.ReflTransGen g.Requires start a

/-- A declared policy is evaluated first on an empty stack. -/
theorem isStackFrom_nil {a : String} (ha : g.IsInternal a) : g.IsStackFrom a [] a where
  distinct := List.nodup_nil
  edges := List.isChain_singleton a
  internal b hb := by rwa [List.mem_singleton.mp hb]
  reachable b hb := by rw [List.mem_singleton.mp hb]

/-- A policy that is required goes onto the stack. -/
theorem IsStackFrom.push {start top t : String} {stack : List String}
    (h : g.IsStackFrom start stack top) (htop : top ∉ stack) (ht : g.Requires top t)
    (hint : g.IsInternal t) : g.IsStackFrom start (stack ++ [top]) t where
  distinct := List.nodup_append.mpr ⟨h.distinct, by simp, by rintro a ha b hb rfl; simp_all⟩
  edges := by
    refine h.edges.append (List.isChain_singleton t) ?_
    simpa using ht
  internal := by
    intro a ha
    rcases List.mem_append.mp ha with ha | ha
    · exact h.internal a ha
    · rwa [List.mem_singleton.mp ha]
  reachable := by
    intro a ha
    rcases List.mem_append.mp ha with ha | ha
    · exact h.reachable a ha
    · rw [List.mem_singleton.mp ha]
      exact (h.reachable top (by simp)).tail ht

/-- A declared policy that a document requires goes onto the stack. -/
theorem IsDrawnFrom.push_required (h : g.IsDrawnFrom cfg p) {start : String} {stack : List String}
    {d e : Document} (hd : d ∈ p.documents) (hstack : g.IsStackFrom start stack d.policy)
    (hout : d.policy ∉ stack) (he : e ∈ p.documents) (hrequired : e.policy ∈ d.prerequisites) :
    g.IsStackFrom start (stack ++ [d.policy]) e.policy :=
  hstack.push hout (h.requires_iff.mpr ⟨d, hd, rfl, hrequired⟩)
    (h.isInternal_iff.mpr (List.mem_map_of_mem he))

/-- A policy that stands on the stack closes a circle. -/
theorem IsStackFrom.isCircleFrom {start top : String} {stack : List String}
    (h : g.IsStackFrom start stack top) (htop : top ∈ stack) :
    g.IsCircleFrom start (stack.dropWhile (fun a => a ≠ top) ++ [top]) := by
  obtain ⟨before, after, rfl⟩ := List.append_of_mem htop
  have hbefore : ∀ a ∈ before, decide (a ≠ top) = true := by
    intro a ha
    have hdisjoint := List.disjoint_of_nodup_append h.distinct ha
    rw [decide_eq_true_eq]
    rintro rfl
    exact hdisjoint List.mem_cons_self
  have hdrop : (before ++ top :: after).dropWhile (fun a => a ≠ top) = top :: after := by
    rw [List.dropWhile_append_of_pos hbefore, List.dropWhile_cons_of_neg (by simp)]
  have hsub : ∀ a ∈ top :: after ++ [top], a ∈ before ++ top :: after ++ [top] := by
    intro a ha
    rw [List.append_assoc]
    exact List.mem_append_right _ ha
  rw [hdrop]
  refine ⟨by simp, ?_, ?_, ?_, fun a ha => h.internal a (hsub a ha),
    fun a ha => h.reachable a (hsub a ha)⟩
  · have hedges := h.edges
    rw [List.append_assoc] at hedges
    exact hedges.right_of_append
  · rw [List.getLast?_concat]
    rfl
  · rw [List.dropLast_concat]
    exact List.Nodup.of_append_right h.distinct

/-- The clauses of declared policies are named by texts. -/
theorem IsDrawnFrom.exists_clauses (h : g.IsDrawnFrom cfg p) {as : List String}
    (has : ∀ a ∈ as, g.IsInternal a) :
    ∃ parts, ∃ xs : List String, (as.map Json.str).mapM g.clausesOf = .ok parts ∧
      parts.flatten = xs.map .str := by
  induction as with
  | nil => exact ⟨[], [], rfl, rfl⟩
  | cons a r ih =>
      obtain ⟨parts, xs, hparts, hxs⟩ := ih fun b hb => has b (List.mem_cons_of_mem _ hb)
      obtain ⟨d, hd, rfl⟩ := List.mem_map.mp (h.isInternal_iff.mp (has a (by simp)))
      obtain ⟨cs, hcs⟩ := h.clausesOf_policy (hasNode_of_node? (h.node?_policy hd))
      refine ⟨cs.map .str :: parts, cs ++ xs, ?_, by simp [hxs]⟩
      rw [List.map_cons, List.mapM_cons, hcs, Attempt.ok_bind, hparts]
      rfl

theorem dropWhile_strs (as : List String) (top : String) :
    (as.map Json.str).dropWhile (fun q => !q.alike (.str top)) =
      (as.dropWhile fun a => a ≠ top).map .str := by
  induction as with
  | nil => rfl
  | cons a r ih =>
      by_cases ha : a = top
      · simp [ha]
      · rw [List.map_cons, List.dropWhile_cons_of_pos (by simpa using ha), ih,
          List.dropWhile_cons_of_pos (by simpa using ha)]

/-- The fault of a circle names its policies. -/
theorem IsDrawnFrom.exists_circularFault (h : g.IsDrawnFrom cfg p) {start top : String}
    {stack : List String} (hstack : g.IsStackFrom start stack top) (htop : top ∈ stack) :
    ∃ cycle clauses, g.circularFault (stack.map .str) (.str top) =
      .ok (.circularRequirement cycle clauses) ∧ g.IsCircleFrom start cycle := by
  have hcircle := hstack.isCircleFrom htop
  obtain ⟨parts, xs, hparts, hxs⟩ := h.exists_clauses hcircle.internal
  obtain ⟨ys, hys, -⟩ := Name.exists_sorted_distinct xs
  have husable : (xs.map Json.str).all Name.isUsable = true := by
    simp [Name.isUsable, Json.isScalar]
  have hnames : (stack.map Json.str).dropWhile (fun q => !q.alike (.str top)) ++ [.str top] =
      (stack.dropWhile (fun a => a ≠ top) ++ [top]).map .str := by
    rw [dropWhile_strs, List.map_append]
    rfl
  refine ⟨_, ys.map .str, ?_, hcircle⟩
  simp only [circularFault, hnames, hparts, hxs, hys, husable, policyTexts, Name.texts?_strs,
    Attempt.ok_bind]
  rfl

end Stack

section Evaluation

variable {cfg : Settings} {g : PolicyGraph} {p : Plan} {inputs : Inputs}

/-- An evaluation below a stack that gives a result, with no circle within reach of the policy. -/
def EndsBelow (g : PolicyGraph) (stack : List String) (policy : String)
    (x : Except Fault Evaluated) : Prop :=
  ∃ e, x = .ok e ∧ e.outcome.IsSettled ∧
    ∀ a, Relation.ReflTransGen g.Requires policy a → a ∉ stack ∧ ¬ g.IsCircular a

/-- An evaluation that reports a circle within reach of a policy. -/
def ReportsCircle (g : PolicyGraph) (start : String) (x : Except Fault Evaluated) : Prop :=
  ∃ cycle clauses, x = .error (.circularRequirement cycle clauses) ∧ g.IsCircleFrom start cycle

theorem IsCircular.isInternal {a : String} (h : g.IsCircular a) : g.IsInternal a := by
  obtain ⟨b, hab, -⟩ := Relation.TransGen.head'_iff.mp h
  exact hab.1

/-- A policy that is only mentioned requires nothing. -/
theorem IsDrawnFrom.eq_of_reaches (h : g.IsDrawnFrom cfg p) {t a : String}
    (ht : t ∉ p.documents.map Document.policy) (hta : Relation.ReflTransGen g.Requires t a) :
    a = t := by
  rcases Relation.ReflTransGen.cases_head hta with rfl | ⟨b, htb, -⟩
  · rfl
  · exact absurd (h.isInternal_iff.mp (h.isInternal_of_requires htb)) ht

theorem IsDrawnFrom.exists_evaluateRoots (h : g.IsDrawnFrom cfg p) (hin : Rule.InRange inputs)
    {d : Document} (hd : d ∈ p.documents) :
    ∃ own, g.evaluateRoots inputs (.str d.policy) = .ok own ∧
      ∀ e ∈ own, e.outcome.IsSettled := by
  obtain ⟨os, hos, -⟩ := Rule.exists_meanings hin (p.rootsOf d.policy) fun t ht => by
    obtain ⟨r, hr, htr⟩ := Rule.mem_walkAll.mp ht
    exact Plan.sound_walk h.sound (Plan.placed_root hd hr) t htr
  have houtcomes := evaluateRoots_outcomes h inputs hd
  rw [hos] at houtcomes
  cases hown : g.evaluateRoots inputs (.str d.policy) with
  | error f => simp [hown, Except.toOption] at houtcomes
  | ok own =>
      refine ⟨own, rfl, fun e he => isSettled_of_roots h hd hos _ ?_⟩
      have hmap : own.map Evaluated.outcome = os := by
        simpa [hown, Except.toOption] using houtcomes
      rw [← hmap]
      exact List.mem_map_of_mem he

/-- With the policies on the stack counted, the levels that are left suffice. -/
theorem IsStackFrom.length_le (h : g.IsDrawnFrom cfg p) {start top : String} {stack : List String}
    (hstack : g.IsStackFrom start stack top) : stack.length ≤ p.documents.length := by
  have hsub : stack ⊆ p.documents.map Document.policy := fun a ha =>
    h.isInternal_iff.mp (hstack.internal a (List.mem_append_left _ ha))
  simpa using (List.subperm_of_subset hstack.distinct hsub).length_le

/-- A policy whose requirements end below it ends itself, with no circle within its reach. -/
theorem IsDrawnFrom.endsBelow_of_required (h : g.IsDrawnFrom cfg p) {start : String}
    {stack : List String} {d : Document} (hd : d ∈ p.documents)
    (hstack : g.IsStackFrom start stack d.policy) (hmem : d.policy ∉ stack)
    {f : String → Except Fault Evaluated}
    (hrequired : ∀ t ∈ d.prerequisites, g.EndsBelow (stack ++ [d.policy]) t (f t)) :
    ∀ a, Relation.ReflTransGen g.Requires d.policy a → a ∉ stack ∧ ¬ g.IsCircular a := by
  have hbelow : ∀ t, g.Requires d.policy t → ∀ a, Relation.ReflTransGen g.Requires t a →
      a ∉ stack ++ [d.policy] ∧ ¬ g.IsCircular a := by
    intro t ht
    obtain ⟨e, he, hpolicy, hte⟩ := h.requires_iff.mp ht
    obtain rfl := Plan.document_eq h.sound he hd hpolicy
    obtain ⟨-, -, -, hreach⟩ := hrequired t hte
    exact hreach
  intro a ha
  rcases Relation.ReflTransGen.cases_head ha with rfl | ⟨t, ht, hta⟩
  · refine ⟨hmem, fun hcircular => ?_⟩
    obtain ⟨t, ht, hback⟩ := Relation.TransGen.head'_iff.mp hcircular
    have hsub : g.RequiresInternal ≤ g.Requires := fun _ _ hxy => hxy.2.2
    exact (hbelow t ht.2.2 _ (Relation.ReflTransGen.mono hsub _ _ hback)).1 (by simp)
  · obtain ⟨hout, hnot⟩ := hbelow t ht a hta
    exact ⟨fun hs => hout (List.mem_append_left _ hs), hnot⟩

/-- A requirement that is not declared ends below every stack of declared policies. -/
theorem IsDrawnFrom.endsBelow_of_undeclared (h : g.IsDrawnFrom cfg p) {stack : List String}
    (hstack : ∀ a ∈ stack, g.IsInternal a) {t : String}
    (ht : t ∉ p.documents.map Document.policy) {x : Evaluated}
    (hx : x.outcome = RuleSet.unknownPolicy t) : g.EndsBelow stack t (.ok x) := by
  refine ⟨x, rfl, hx ▸ isSettled_unknownPolicy t, fun a ha => ?_⟩
  obtain rfl := h.eq_of_reaches ht ha
  have hexternal : ¬ g.IsInternal a := fun hi => ht (h.isInternal_iff.mp hi)
  exact ⟨fun ha => hexternal (hstack a ha), fun hc => hexternal hc.isInternal⟩

/-- Of requirements that end or report a circle all end, or the first that does not reports one. -/
theorem mapM_required_cases {start : String} {stack ts : List String}
    {f : Name → Except Fault Evaluated}
    (hts : ∀ t ∈ ts, g.EndsBelow stack t (f (.str t)) ∨ g.ReportsCircle start (f (.str t))) :
    (∃ es, (ts.map .str).mapM f = .ok es ∧ (∀ e ∈ es, e.outcome.IsSettled) ∧
      ∀ t ∈ ts, g.EndsBelow stack t (f (.str t))) ∨
    ∃ cycle clauses, (ts.map .str).mapM f = .error (.circularRequirement cycle clauses) ∧
      g.IsCircleFrom start cycle := by
  cases hes : (ts.map Json.str).mapM f with
  | error fault =>
      obtain ⟨name, hname, hf⟩ := Attempt.exists_of_mapM_error hes
      obtain ⟨t, ht, rfl⟩ := List.mem_map.mp hname
      rcases hts t ht with ⟨e, he, -⟩ | ⟨cycle, clauses, hfault, hcycle⟩
      · cases hf.symm.trans he
      · obtain rfl := Except.error.inj (hf.symm.trans hfault)
        exact .inr ⟨cycle, clauses, rfl, hcycle⟩
  | ok es =>
      have hends : ∀ t ∈ ts, g.EndsBelow stack t (f (.str t)) := by
        intro t ht
        rcases hts t ht with hend | ⟨cycle, clauses, hfault, -⟩
        · exact hend
        · obtain ⟨x, hx⟩ := Attempt.exists_ok_of_mapM hes (List.mem_map_of_mem ht)
          cases hx.symm.trans hfault
      refine .inl ⟨es, rfl, fun e he => ?_, hends⟩
      obtain ⟨name, hname, hf⟩ := Attempt.exists_of_mem_mapM hes he
      obtain ⟨t, ht, rfl⟩ := List.mem_map.mp hname
      obtain ⟨x, hx, hs, -⟩ := hends t ht
      rwa [Except.ok.inj (hf.symm.trans hx)]

/-- Where no policy contradicts itself and inputs are in range, the evaluation of a policy on a
stack gives a result, or reports a circle. -/
theorem IsDrawnFrom.evaluatePolicyTo_cases (h : g.IsDrawnFrom cfg p)
    (hprecheck : ∀ a, g.IsInternal a → g.precheck (.str a) = .ok ()) (hin : Rule.InRange inputs)
    {start : String} {fuel : Nat} {stack : List String} {d : Document} (hd : d ∈ p.documents)
    (hstack : g.IsStackFrom start stack d.policy)
    (hfuel : p.documents.length < fuel + stack.length) :
    g.EndsBelow stack d.policy (g.evaluatePolicyTo inputs fuel (stack.map .str)
        (Plan.policyNode cfg d (p.rootsOf d.policy))) ∨
      g.ReportsCircle start (g.evaluatePolicyTo inputs fuel (stack.map .str)
        (Plan.policyNode cfg d (p.rootsOf d.policy))) := by
  induction fuel generalizing stack d with
  | zero =>
      have := hstack.length_le h
      omega
  | succ fuel ih =>
      rw [evaluatePolicyTo_succ, Plan.policyNode_policy, Json.among_strs]
      by_cases hmem : d.policy ∈ stack
      · obtain ⟨cycle, clauses, hfault, hcircle⟩ := h.exists_circularFault hstack hmem
        rw [if_pos (by simpa using hmem), hfault]
        exact .inr ⟨cycle, clauses, rfl, hcircle⟩
      have hint : g.IsInternal d.policy := hstack.internal _ (by simp)
      obtain ⟨own, hown, hownSettled⟩ := h.exists_evaluateRoots hin hd
      rw [if_neg (by simpa using hmem), hprecheck _ hint, Attempt.ok_bind, hown, Attempt.ok_bind,
        h.requiredPolicies_policy hd, Attempt.ok_bind]
      -- each requirement ends below the grown stack, or reports a circle
      have hstep : ∀ t ∈ RuleSet.firstTexts [] d.prerequisites,
          g.EndsBelow (stack ++ [d.policy]) t
            (g.evaluateRequired inputs fuel (stack.map .str) (.str d.policy) (.str t)) ∨
          g.ReportsCircle start
            (g.evaluateRequired inputs fuel (stack.map .str) (.str d.policy) (.str t)) := by
        intro t hfirst
        obtain ⟨ht, -⟩ := Plan.mem_firstTexts.mp hfirst
        rcases evaluateRequired_cases h inputs fuel stack hd ht with
          ⟨e, he, rfl, hrest⟩ | ⟨hundeclared, x, hx, houtcome⟩
        · rw [hrest]
          refine ih he (h.push_required hd hstack hmem he ht) ?_
          rw [List.length_append, List.length_singleton]
          omega
        · rw [hx]
          exact .inl (h.endsBelow_of_undeclared hstack.internal hundeclared houtcome)
      rcases mapM_required_cases hstep with
        ⟨required, hrequired, hrequiredSettled, hends⟩ | ⟨cycle, clauses, hfault, hcycle⟩
      · left
        have hends' : ∀ t ∈ d.prerequisites, g.EndsBelow (stack ++ [d.policy]) t
            (g.evaluateRequired inputs fuel (stack.map .str) (.str d.policy) (.str t)) :=
          fun t ht => hends t (Plan.mem_firstTexts.mpr ⟨ht, by simp⟩)
        have hsettled : ∀ e ∈ own ++ required, e.outcome.IsSettled :=
          List.forall_mem_append.mpr ⟨hownSettled, hrequiredSettled⟩
        obtain ⟨e, he, houtcome⟩ := exists_concludePolicy h hd hsettled
        rw [hrequired, Attempt.ok_bind]
        refine ⟨e, he, ?_, h.endsBelow_of_required hd hstack hmem hends'⟩
        rw [houtcome]
        refine Outcome.isSettled_conjunction fun o ho => ?_
        obtain ⟨x, hx, rfl⟩ := List.mem_map.mp ho
        exact hsettled x hx
      · right
        exact ⟨cycle, clauses, by rw [hfault, Attempt.error_bind], hcycle⟩

/-- A circle is circular at each of its policies. -/
theorem IsCircleFrom.exists_isCircular {start : String} {cycle : List String}
    (h : g.IsCircleFrom start cycle) :
    ∃ a, Relation.ReflTransGen g.Requires start a ∧ g.IsCircular a := by
  obtain ⟨hlength, hedges, hclosed, -, hinternal, hreachable⟩ := h
  match cycle with
  | a :: b :: r =>
      have hchain : (a :: b :: r).IsChain g.RequiresInternal :=
        hedges.imp_of_mem_imp fun x y hx hy hxy => ⟨hinternal x hx, hinternal y hy, hxy⟩
      obtain ⟨hab, hrest⟩ := List.isChain_cons_cons.mp hchain
      have hlast : (b :: r).getLast (List.cons_ne_nil _ _) = a := by
        have : some a = (a :: b :: r).getLast? := hclosed
        rw [List.getLast?_cons_cons, List.getLast?_eq_some_getLast (List.cons_ne_nil b r)] at this
        exact (Option.some.inj this).symm
      have hback := List.relationReflTransGen_of_exists_isChain_cons r hrest hlast
      exact ⟨a, hreachable a (by simp), Relation.TransGen.head' hab hback⟩

/-- A declared policy gets a verdict with no circle within its reach, or is reported as circular. -/
theorem IsDrawnFrom.evaluate_cases (h : g.IsDrawnFrom cfg p)
    (hprecheck : ∀ a, g.IsInternal a → g.precheck (.str a) = .ok ())
    {policy inputs : Json} {es : Entries Json} {q : Query}
    (hes : Fault.mappingOrEmpty inputs = .ok es) (hq : Query.check policy es = .ok q)
    (hin : Rule.InRange q.inputs) (hpolicy : g.IsInternal q.policy) :
    (∃ v, (g.evaluate cfg policy inputs).outcome = .ok v ∧
        ∀ a, Relation.ReflTransGen g.Requires q.policy a → ¬ g.IsCircular a) ∨
      ∃ cycle clauses, (g.evaluate cfg policy inputs).outcome =
        .error (.circularRequirement cycle clauses) ∧ g.IsCircleFrom q.policy cycle := by
  obtain ⟨d, hd, hdq⟩ := List.mem_map.mp (h.isInternal_iff.mp hpolicy)
  have hstack : g.IsStackFrom q.policy [] d.policy := by
    rw [hdq]
    exact isStackFrom_nil hpolicy
  have hfuel : p.documents.length < g.nodes.length + 1 + ([] : List String).length :=
    Nat.lt_succ_of_le h.length_documents_le
  have houtcome : (g.evaluate cfg policy inputs).outcome =
      g.evaluatePolicyTo q.inputs (g.nodes.length + 1) []
        (Plan.policyNode cfg d (p.rootsOf d.policy)) >>= conclude cfg (.str q.policy) := by
    rw [evaluate_eq_answer cfg g hes hq, answer, run_outcome, verdict, declaredPolicy, policyNode?,
      Node.policyId_str, ← hdq, h.node?_policy hd]
    simp only [Plan.policyNode_isExternal]
    rfl
  have hcases := h.evaluatePolicyTo_cases hprecheck hin hd hstack hfuel
  rw [List.map_nil] at hcases
  rw [houtcome]
  rcases hcases with ⟨e, he, -, hnone⟩ | ⟨cycle, clauses, hfault, hcircle⟩
  · obtain ⟨v, hv⟩ : ∃ v, conclude cfg (.str q.policy) e = .ok v := ⟨_, rfl⟩
    exact .inl ⟨v, by rw [he, Attempt.ok_bind, hv], fun a ha => (hnone a (hdq ▸ ha)).2⟩
  · exact .inr ⟨cycle, clauses, by rw [hfault, Attempt.error_bind], hcircle⟩

/-- Where no policy contradicts itself and inputs are in range, the evaluation of a declared policy
returns a verdict or reports a circle of requirements within its reach; it does the latter exactly
where there is such a circle. -/
theorem evaluate_circular (hg : g.IsCompiled cfg)
    (hprecheck : ∀ a, g.IsInternal a → g.precheck (.str a) = .ok ())
    {policy inputs : Json} {es : Entries Json} {q : Query}
    (hes : Fault.mappingOrEmpty inputs = .ok es) (hq : Query.check policy es = .ok q)
    (hin : Rule.InRange q.inputs) (hpolicy : g.IsInternal q.policy) :
    ((∃ v, (g.evaluate cfg policy inputs).outcome = .ok v) ∨
      ∃ cycle clauses, (g.evaluate cfg policy inputs).outcome =
        .error (.circularRequirement cycle clauses)) ∧
    ((∃ cycle clauses, (g.evaluate cfg policy inputs).outcome =
        .error (.circularRequirement cycle clauses)) ↔
      ∃ a, Relation.ReflTransGen g.Requires q.policy a ∧ g.IsCircular a) ∧
    ∀ cycle clauses, (g.evaluate cfg policy inputs).outcome =
        .error (.circularRequirement cycle clauses) → g.IsCircleFrom q.policy cycle := by
  obtain ⟨p, h⟩ := hg.exists_isDrawnFrom
  rcases h.evaluate_cases hprecheck hes hq hin hpolicy with
    ⟨v, hv, hnone⟩ | ⟨cycle, clauses, hfault, hcircle⟩
  · rw [hv]
    refine ⟨.inl ⟨v, rfl⟩, ⟨?_, ?_⟩, ?_⟩
    · rintro ⟨cycle, clauses, hfault⟩
      cases hfault
    · rintro ⟨a, hreach, hcircular⟩
      exact absurd hcircular (hnone a hreach)
    · intro cycle clauses hfault
      cases hfault
  · rw [hfault]
    refine ⟨.inr ⟨cycle, clauses, rfl⟩, ⟨fun _ => hcircle.exists_isCircular, fun _ => ?_⟩, ?_⟩
    · exact ⟨cycle, clauses, rfl⟩
    · intro cycle' clauses' he
      cases he
      exact hcircle

end Evaluation

section Consistency

variable {cfg : Settings} {g : PolicyGraph} {p : Plan}

theorem mustHold_of_isLeaf {n : Node} (hn : n.isLeaf = true) (positive : Bool) :
    g.mustHold n positive = .ok [⟨n, positive⟩] := by
  simp only [mustHold, depthBound, mustHoldTo, hn, if_true]

theorem besideOthers_singleton {n : Node} (hn : n.isLeaf = true) :
    g.besideOthers [] [(n, true)] = .ok [((n, true), [])] := by
  rw [besideOthers]
  simp only [List.mapM_cons, List.mapM_nil, mustHold_of_isLeaf hn, Attempt.ok_bind, pure_bind]
  rfl

theorem descend_of_isLeaf {n : Node} (hn : n.isLeaf = true) :
    g.descend [] g.depthBound ((n, true), []) = .ok [⟨⟨n, true⟩, [], [n.id]⟩] := by
  simp only [depthBound, descend, hn, if_true, List.nil_append]

/-- A policy of at most one rule, a comparison, does not contradict itself. -/
theorem IsDrawnFrom.precheck_of_comparison (h : g.IsDrawnFrom cfg p) {d : Document}
    (hd : d ∈ p.documents) (hone : (p.rootsOf d.policy).length ≤ 1)
    (hleaf : ∀ r ∈ p.rootsOf d.policy, r.head.operator.isLogical = false) :
    g.precheck (.str d.policy) = .ok () := by
  obtain ⟨bs, hbs, hall⟩ := h.policyRoots_policy hd
  generalize p.rootsOf d.policy = rs at hall hone hleaf
  have hcontradiction : g.contradiction? (.str d.policy) = .ok none := by
    rw [contradiction?, paths, rootDemands, hbs, Attempt.map_ok, Attempt.ok_bind]
    cases hall with
    | nil => rfl
    | @cons r b rs bs hb hrest =>
        obtain rfl : rs = [] := List.eq_nil_of_length_eq_zero (by simpa using hone)
        obtain rfl : bs = [] := List.forall₂_nil_left_iff.mp hrest
        have hkind : b.node.isLeaf = true := by
          rw [hb.1, Plan.conditionNode_isLeaf]
          simpa using hleaf r (by simp)
        obtain ⟨c, hc⟩ : ∃ c, Literal.condition ⟨b.node, true⟩ = .ok c := by
          simp [Literal.condition, Literal.operator?, hb.1]
        rw [List.map_singleton, besideOthers_singleton hkind, Attempt.ok_bind]
        simp only [List.mapM_cons, List.mapM_nil, descend_of_isLeaf hkind, Attempt.ok_bind,
          pure_bind]
        simp only [Except.bind, pure, Except.pure, List.flatten_cons, List.flatten_nil,
          List.append_nil, firstContradiction?, Path.contradiction?, hc, Attempt.ok_bind,
          Path.clash?]
        rfl
  rw [precheck, hcontradiction]
  rfl
end Consistency

end PolicyGraph

section Rings

/-- Two policies that require each other. -/
def ring : RuleSet where
  rules := [.node { id := "r", subject := "status", operator := .eq, value := some (.text "ok"),
                    clause := "c", confidence := some Number.one } []]
  documents := [{ policy := "a", clauses := [{ id := "c" }], prerequisites := ["b"] },
    { policy := "b", prerequisites := ["a"] }]

def ringPlan : Plan := ⟨ring.documents, ring.rules.map ("a", ·)⟩

namespace PolicyGraph

theorem IsDrawnFrom.precheck_ring {g : PolicyGraph} (h : g.IsDrawnFrom Settings.standard ringPlan)
    {a : String} (ha : g.IsInternal a) : g.precheck (.str a) = .ok () := by
  obtain ⟨d, hd, rfl⟩ := List.mem_map.mp (h.isInternal_iff.mp ha)
  have hd' : d = { policy := "a", clauses := [{ id := "c" }], prerequisites := ["b"] } ∨
      d = { policy := "b", prerequisites := ["a"] } := by
    simpa [ringPlan, ring] using hd
  rcases hd' with rfl | rfl <;>
    exact h.precheck_of_comparison hd (by simp [ringPlan, ring, Plan.rootsOf])
      (by simp [ringPlan, ring, Plan.rootsOf, Operator.isLogical])

/-- Of two policies that require each other each is reported as circular. -/
theorem evaluate_ring : ∃ g : PolicyGraph, (ring.build Settings.standard).outcome = .ok g ∧
    ∃ cycle clauses, (g.evaluate Settings.standard (.str "a") (.obj [])).outcome =
      .error (.circularRequirement cycle clauses) := by
  obtain ⟨g, hvalid, hg, h⟩ : ∃ g, ring.validate Settings.standard = .ok ring ∧
      (ring.build Settings.standard).outcome = .ok g ∧ g.IsDrawnFrom Settings.standard ringPlan :=
    exists_build (by decide +kernel) rfl (by decide +kernel)
  have hinternal : ∀ a ∈ ["a", "b"], g.IsInternal a := fun a ha => h.isInternal_iff.mpr ha
  have hab : g.RequiresInternal "a" "b" := by
    refine ⟨hinternal _ (by simp), hinternal _ (by simp), h.requires_iff.mpr ?_⟩
    exact ⟨_, List.mem_cons_self, rfl, List.mem_cons_self⟩
  have hba : g.RequiresInternal "b" "a" := by
    refine ⟨hinternal _ (by simp), hinternal _ (by simp), h.requires_iff.mpr ?_⟩
    exact ⟨_, List.mem_cons_of_mem _ List.mem_cons_self, rfl, List.mem_cons_self⟩
  have hcircular : g.IsCircular "a" := .head hab (.single hba)
  have hquery : Query.check (.str "a") [] = .ok ⟨"a", []⟩ := rfl
  have hspec := evaluate_circular ⟨ring, hvalid, hg⟩ (fun a ha => h.precheck_ring ha)
    (show Fault.mappingOrEmpty (.obj []) = .ok [] from rfl) hquery
    (fun _ hx => absurd hx List.not_mem_nil) (hinternal _ (by simp))
  exact ⟨g, hg, hspec.2.1.mpr ⟨"a", .refl, hcircular⟩⟩

end PolicyGraph

end Rings

end Eligibility
