import Eligibility.Proofs.Descents
import Eligibility.Proofs.Refinement
/-!
# How operations on a policy end

**Entanglement.**  A graph from a file may have conditions that are operands of themselves,
directly or over others.  A policy is entangled where a way down from its rules leads to
such a circle.

**Ends.**  Nothing but an entangled policy makes a descent endless; and an entangled policy
has no result, nor a fault that is reported.  The policies that an evaluation reaches
over requirements stand on a stack without repetition, which cannot outgrow the graph.

**Results.**
* `endsUnless_precheck`: the check for contradictions.
* `evaluatePolicyTo_ne_unbounded`, `not_isEntangled_of_evaluatePolicyTo`: the evaluation.
* `endsUnless_scoreOf`: the score.
-/

namespace Eligibility
open Attempt

/-- An attempt that does not go too deep where nothing is circular, and that ends in a fault which
is not reported where something is. -/
structure EndsUnless {α : Type} (circular : Prop) (x : Except Fault α) : Prop where
  ends : ¬ circular → x ≠ .error .unbounded
  fails : circular → ∃ f, x = .error f ∧ f.isReported = false

section Ends

variable {α β : Type} {circular : Prop} {x : Except Fault α}

theorem Attempt.FailsOnly.ne_unbounded (h : FailsOnly (Fault.IsInner circular) x)
    (hnot : ¬ circular) : FailsOnly (· ≠ .unbounded) x :=
  fun _ hf hun => hnot ((h _ hf).endless hun)

theorem Attempt.FailsOnly.never_unbounded (h : FailsOnly (Fault.IsInner False) x) :
    FailsOnly (· ≠ .unbounded) x := h.ne_unbounded id

theorem Attempt.FailsOnly.ne_error {P : Fault → Prop} {f : Fault} (h : FailsOnly P x) (hf : ¬ P f) :
    x ≠ .error f := fun hx => hf (h f hx)

/-- An attempt that gives no value where something is circular, and only then goes too deep. -/
theorem EndsUnless.of_failsOnly (h : FailsOnly (Fault.IsInner circular) x)
    (hok : ∀ a, x = .ok a → ¬ circular) : EndsUnless circular x where
  ends hnot := (h.ne_unbounded hnot).ne_error (· rfl)
  fails hcircular := by
    cases hx : x with
    | ok a => exact absurd hcircular (hok a hx)
    | error f => exact ⟨f, rfl, (h f hx).unreported⟩

/-- What comes after does not change how an attempt ends, unless it goes too deep itself. -/
theorem EndsUnless.bind {k : α → Except Fault β} (h : EndsUnless circular x)
    (hk : ∀ a, ¬ circular → FailsOnly (· ≠ .unbounded) (k a)) : EndsUnless circular (x >>= k) where
  ends hnot he := by
    rcases bind_eq_error.mp he with hx | ⟨a, -, ha⟩
    · exact h.ends hnot hx
    · exact hk a hnot _ ha rfl
  fails hcircular := by
    obtain ⟨f, hf, hreported⟩ := h.fails hcircular
    exact ⟨f, by rw [hf]; rfl, hreported⟩

end Ends

namespace PolicyGraph

variable {g : PolicyGraph} {R : Node → Node → Prop} {policy : Name}

section Entanglement

/-- Whether a way along a relation from the rules of a policy leads to a circle. -/
def IsEntangled (g : PolicyGraph) (R : Node → Node → Prop) (policy : Name) : Prop :=
  ∃ bs, g.policyRoots policy = .ok bs ∧ ∃ b ∈ bs, LeadsToCircle R b.node

theorem mem_of_reflTransGen (hR : ∀ m n, R m n → g.HasOperand m n) {m n : Node} (hm : m ∈ g.nodes)
    (h : Relation.ReflTransGen R m n) : n ∈ g.nodes := by
  induction h with
  | refl => exact hm
  | tail _ hstep _ => exact (hR _ _ hstep).mem

/-- As many steps as a descent is given lead to the end of every way that leads to no circle. -/
theorem endsWithin_depthBound_iff (hR : ∀ m n, R m n → g.HasOperand m n) {n : Node}
    (hn : n ∈ g.nodes) : EndsWithin R g.depthBound n ↔ ¬ LeadsToCircle R n :=
  endsWithin_iff (fun _ => mem_of_reflTransGen hR hn) (by unfold depthBound; omega)

theorem hasOperand_of_combines (m n : Node) (h : g.Combines m n) : g.HasOperand m n := h.2

/-- A descent from a rule of a policy is endless only where the policy is entangled. -/
theorem isEntangled_of_not_endsWithin (hR : ∀ m n, R m n → g.HasOperand m n) {bs : List Branch}
    (hbs : g.policyRoots policy = .ok bs) {b : Branch} (hb : b ∈ bs)
    (h : ¬ EndsWithin R g.depthBound b.node) : g.IsEntangled R policy := by
  rw [endsWithin_depthBound_iff hR (mem_of_ruleChildren hbs b hb), not_not] at h
  exact ⟨bs, hbs, b, hb, h⟩

/-- A policy is not entangled where all ways from its rules end. -/
theorem not_isEntangled {bs : List Branch} (hbs : g.policyRoots policy = .ok bs)
    (h : ∀ b ∈ bs, EndsWithin R g.depthBound b.node) : ¬ g.IsEntangled R policy := by
  rintro ⟨bs', hbs', b, hb, hcircle⟩
  obtain rfl := Except.ok.inj (hbs.symm.trans hbs')
  exact (h b hb).not_leadsToCircle hcircle

end Entanglement

section Checks

/-- The paths of a policy are found, unless it is entangled. -/
theorem failsOnly_paths (g : PolicyGraph) (policy : Name) :
    FailsOnly (Fault.IsInner (g.IsEntangled g.Combines policy)) (g.paths policy) := by
  unfold paths rootDemands
  refine .bind (g.failsOnly_ruleChildren _).map fun ds hds => ?_
  obtain ⟨bs, hbs, rfl⟩ := map_eq_ok.mp hds
  have hroots : ∀ d ∈ bs.map fun b => (b.node, true), ¬ EndsWithin g.Combines g.depthBound d.1 →
      g.IsEntangled g.Combines policy := by
    intro d hd
    obtain ⟨b, hb, rfl⟩ := List.mem_map.mp hd
    exact isEntangled_of_not_endsWithin hasOperand_of_combines hbs hb
  refine .bind (failsOnly_besideOthers [] hroots) fun below hbelow =>
    .bind (.mapM fun x hx => ?_) fun _ _ => .ok _
  have hd := map_fst_besideOthers hbelow ▸ List.mem_map_of_mem (f := Prod.fst) hx
  exact (failsOnly_descend [] le_rfl x).imp fun _ hf => hf.imp (hroots x.1 hd)

theorem not_isEntangled_of_paths {ps : List Path} (h : g.paths policy = .ok ps) :
    ¬ g.IsEntangled g.Combines policy := by
  obtain ⟨ds, hds, h⟩ := bind_eq_ok.mp h
  obtain ⟨bs, hbs, rfl⟩ := map_eq_ok.mp hds
  obtain ⟨below, hbelow, h⟩ := bind_eq_ok.mp h
  obtain ⟨parts, hparts, -⟩ := bind_eq_ok.mp h
  refine not_isEntangled hbs fun b hb => ?_
  have hd : (b.node, true) ∈ below.map Prod.fst :=
    map_fst_besideOthers hbelow ▸ List.mem_map_of_mem hb
  obtain ⟨x, hx, hxd⟩ := List.mem_map.mp hd
  obtain ⟨ps, hps⟩ := exists_ok_of_mapM hparts hx
  have := endsWithin_of_descend hps
  rwa [hxd] at this

/-- The paths of a policy are found exactly where it is not entangled, as far as going too deep
is concerned. -/
theorem endsUnless_paths (g : PolicyGraph) (policy : Name) :
    EndsUnless (g.IsEntangled g.Combines policy) (g.paths policy) :=
  .of_failsOnly (g.failsOnly_paths policy) fun _ => not_isEntangled_of_paths

/-- What a policy needs is found, unless it is entangled. -/
theorem failsOnly_requirements (g : PolicyGraph) (policy : Name) :
    FailsOnly (Fault.IsInner (g.IsEntangled g.Combines policy)) (g.requirements policy) := by
  unfold requirements rootDemands
  refine .bind (g.failsOnly_ruleChildren _).map fun ds hds => .bind (.mapM fun d hd => ?_)
    fun _ _ => .ok _
  obtain ⟨bs, hbs, rfl⟩ := map_eq_ok.mp hds
  obtain ⟨b, hb, rfl⟩ := List.mem_map.mp hd
  exact failsOnly_mustHold true (isEntangled_of_not_endsWithin hasOperand_of_combines hbs hb)

variable {endless : Prop}

theorem failsOnly_clash? (c : Condition) (ls : List Literal) :
    FailsOnly (Fault.IsInner endless) (Path.clash? c ls) := by
  induction ls with
  | nil => exact .ok none
  | cons l ls ih =>
      rw [Path.clash?]
      split
      · exact ih
      · refine l.failsOnly_condition.bind fun d _ => (c.failsOnly_jointly d).bind fun b _ => ?_
        split
        · exact ih
        · exact .ok _

theorem failsOnly_firstContradiction? (ps : List Path) :
    FailsOnly (Fault.IsInner endless) (firstContradiction? ps) := by
  induction ps with
  | nil => exact .ok none
  | cons p ps ih =>
      refine .bind ?_ fun pair _ => ?_
      · exact p.leaf.failsOnly_condition.bind fun c _ =>
          (failsOnly_clash? c p.context).bind fun _ _ => .ok _
      · cases pair with
        | none => exact ih
        | some pair => exact .ok _

theorem failsOnly_contradictionFault (policy : Name) (leaf other : Literal) :
    FailsOnly (Fault.IsInner endless) (contradictionFault policy leaf other) := by
  have hbefore : ∀ a b : Literal, FailsOnly (Fault.IsInner endless) (a.before b) := by
    intro a b
    unfold Literal.before
    split
    · exact Fault.failsOnly_ordered _ _
    · split
      · exact Fault.failsOnly_ordered _ _
      · exact .ok _
  have hcited : ∀ l : Literal, FailsOnly (Fault.IsInner endless) l.cited := fun l =>
    l.failsOnly_describe.map
  exact .bind (hbefore other leaf).map fun _ _ => (hcited _).bind fun _ _ =>
    (hcited _).bind fun _ _ => .ok _

theorem contradictionFault_ne_unbounded {leaf other : Literal} {f : Fault}
    (h : contradictionFault policy leaf other = .ok f) : f ≠ .unbounded := by
  obtain ⟨_, -, h⟩ := bind_eq_ok.mp h
  obtain ⟨_, -, h⟩ := bind_eq_ok.mp h
  obtain ⟨_, -, h⟩ := bind_eq_ok.mp h
  cases h
  exact nofun

/-- The check of a policy ends, unless the policy is entangled; then it fails without a report. -/
theorem endsUnless_precheck (g : PolicyGraph) (policy : Name) :
    EndsUnless (g.IsEntangled g.Combines policy) (g.precheck policy) := by
  refine EndsUnless.bind (x := g.contradiction? policy) ?_ fun pair _ => ?_
  · exact (g.endsUnless_paths policy).bind fun ps _ =>
      (failsOnly_firstContradiction? ps).never_unbounded
  · match pair with
    | none => exact .ok ()
    | some (leaf, other) =>
        exact (failsOnly_contradictionFault policy leaf other).never_unbounded.bind
          fun f hf => .error (contradictionFault_ne_unbounded hf)

end Checks

section Evaluation

variable {endless : Prop} {inputs : Inputs} {fuel : Nat} {stack : List Name} {n : Node}

theorem failsOnly_firstClause (g : PolicyGraph) (policy : Name) :
    FailsOnly (Fault.IsInner endless) (g.firstClause policy) := (g.failsOnly_clausesOf policy).map

theorem failsOnly_policyTexts (ns : List Name) :
    FailsOnly (Fault.IsInner endless) (policyTexts ns) := by
  unfold policyTexts
  split
  · exact .ok _
  · exact .error ⟨rfl, nofun⟩

theorem failsOnly_circularFault (g : PolicyGraph) (stack : List Name) (policy : Name) :
    FailsOnly (Fault.IsInner endless) (g.circularFault stack policy) := by
  refine .bind (.mapM fun n _ => g.failsOnly_clausesOf n) fun parts _ => ?_
  split
  · exact .error ⟨rfl, nofun⟩
  · exact (Fault.failsOnly_sorted _).bind fun _ _ =>
      (failsOnly_policyTexts _).bind fun _ _ => .ok _

theorem circularFault_ne_unbounded {f : Fault} (h : g.circularFault stack policy = .ok f) :
    f ≠ .unbounded := by
  obtain ⟨parts, -, h⟩ := bind_eq_ok.mp h
  split at h
  · cases h
  · obtain ⟨_, -, h⟩ := bind_eq_ok.mp h
    obtain ⟨_, -, h⟩ := bind_eq_ok.mp h
    cases h
    exact nofun

theorem failsOnly_evaluateExternal (g : PolicyGraph) (n : Node) (policy : Name) :
    FailsOnly (Fault.IsInner endless) (g.evaluateExternal n policy) := by
  unfold evaluateExternal
  dsimp only
  split
  · exact .error ⟨rfl, nofun⟩
  · exact (g.failsOnly_firstClause policy).bind fun _ _ =>
      .bind (Fault.failsOnly_ofChecked _) fun _ _ => .ok _

theorem failsOnly_concludePolicy (g : PolicyGraph) (n : Node) (es : List Evaluated) :
    FailsOnly (Fault.IsInner endless) (g.concludePolicy n es) := by
  unfold concludePolicy
  dsimp only
  split
  · exact .ok _
  · exact (g.failsOnly_firstClause _).bind fun _ _ =>
      .bind (Fault.failsOnly_ofChecked _) fun _ _ => .ok _
  · exact (g.failsOnly_firstClause _).bind fun _ _ =>
      .bind (Fault.failsOnly_ofChecked _) fun _ _ => .ok _

theorem failsOnly_evaluateRoots (g : PolicyGraph) (inputs : Inputs) (policy : Name) :
    FailsOnly (Fault.IsInner (g.IsEntangled g.Combines policy)) (g.evaluateRoots inputs policy) :=
  (g.failsOnly_ruleChildren _).bind fun _ hbs => .mapM fun b hb =>
    (failsOnly_evaluateRule inputs _ b.node).imp fun _ hf =>
      hf.imp (isEntangled_of_not_endsWithin hasOperand_of_combines hbs hb)

/-- Whether the evaluation of a policy goes on to another one, which is declared in the graph. -/
def GoesOnTo (g : PolicyGraph) (n m : Node) : Prop :=
  ∃ names, g.requiredPolicies n.policy = .ok names ∧
    ∃ name ∈ names, g.node (Node.policyId name) = .ok m ∧ m.isExternal = false

/-- A stack of the names of nodes, none of which is like an earlier one. -/
def IsStack (g : PolicyGraph) (stack : List Name) : Prop :=
  ∃ ns : List Node, ns ⊆ g.nodes ∧ ns.map Node.policy = stack ∧
    ns.Pairwise fun m n => ¬ n.policy.alike m.policy = true

theorem isStack_nil (g : PolicyGraph) : g.IsStack [] := ⟨[], by simp, rfl, .nil⟩

theorem IsStack.push (h : g.IsStack stack) (hn : n ∈ g.nodes)
    (hout : ¬ n.policy.among stack = true) : g.IsStack (stack ++ [n.policy]) := by
  obtain ⟨ns, hsub, rfl, hns⟩ := h
  refine ⟨ns ++ [n], List.append_subset.mpr ⟨hsub, by simpa using hn⟩, by simp, ?_⟩
  refine List.pairwise_append.mpr ⟨hns, List.pairwise_singleton _ _, fun m hm k hk halike => ?_⟩
  rw [List.mem_singleton.mp hk] at halike
  exact hout (List.any_eq_true.mpr ⟨_, List.mem_map_of_mem hm, halike⟩)

/-- Names that are like themselves stand on a stack at most once each, so that it does not outgrow
the graph. -/
theorem IsStack.length_le (hnames : ∀ n ∈ g.nodes, n.policy.alike n.policy = true)
    (h : g.IsStack stack) : stack.length ≤ g.nodes.length := by
  obtain ⟨ns, hsub, rfl, hns⟩ := h
  have hnodup : ns.Nodup := hns.imp_of_mem fun {m n} hm _ hmn heq =>
    hmn (heq ▸ hnames m (hsub hm))
  simpa using (List.subperm_of_subset hnodup hsub).length_le

/-- The evaluation of a policy does not go too deep, unless it or one that it goes on to is
entangled. -/
theorem evaluatePolicyTo_ne_unbounded (hnames : ∀ n ∈ g.nodes, n.policy.alike n.policy = true)
    (hn : n ∈ g.nodes) (hstack : g.IsStack stack) (hfuel : g.nodes.length < fuel + stack.length)
    (hclear : ∀ m, Relation.ReflTransGen g.GoesOnTo n m → ¬ g.IsEntangled g.Combines m.policy) :
    FailsOnly (· ≠ .unbounded) (g.evaluatePolicyTo inputs fuel stack n) := by
  induction fuel generalizing stack n with
  | zero =>
      have := hstack.length_le hnames
      omega
  | succ fuel ih =>
      have hown := hclear n .refl
      rw [evaluatePolicyTo_succ]
      split
      · exact (g.failsOnly_circularFault stack _).never_unbounded.bind fun f hf =>
          .error (circularFault_ne_unbounded hf)
      · next hout =>
        refine .bind (fun f hf hun => (g.endsUnless_precheck _).ends hown (hun ▸ hf)) fun _ _ =>
          .bind ((g.failsOnly_evaluateRoots inputs _).ne_unbounded hown) fun own _ =>
          .bind (g.failsOnly_requiredPolicies _).never_unbounded fun names hrequired =>
          .bind (.mapM fun name hname => ?_) fun es _ => (g.failsOnly_concludePolicy n _).never_unbounded
        refine (g.failsOnly_node _).never_unbounded.bind fun m hm => ?_
        split
        · exact (g.failsOnly_evaluateExternal m _).never_unbounded
        · next hexternal =>
          have hgoes : g.GoesOnTo n m := ⟨names, hrequired, name, hname, hm, by simpa using hexternal⟩
          refine ih (mem_of_node? (node_eq_ok.mp hm)) (hstack.push hn hout) ?_ fun k hk =>
            hclear k (.head hgoes hk)
          rw [List.length_append, List.length_singleton]
          omega

/-- Where the evaluation of a policy gives a result, neither it nor any policy that it goes on to
is entangled. -/
theorem not_isEntangled_of_evaluatePolicyTo {e : Evaluated}
    (h : g.evaluatePolicyTo inputs fuel stack n = .ok e) {m : Node}
    (hm : Relation.ReflTransGen g.GoesOnTo n m) : ¬ g.IsEntangled g.Combines m.policy := by
  induction fuel generalizing stack n e with
  | zero => cases h
  | succ fuel ih =>
      rw [evaluatePolicyTo_succ] at h
      split at h
      · obtain ⟨_, -, h⟩ := bind_eq_ok.mp h
        cases h
      obtain ⟨_, hprecheck, h⟩ := bind_eq_ok.mp h
      obtain ⟨_, -, h⟩ := bind_eq_ok.mp h
      obtain ⟨names, hnames, h⟩ := bind_eq_ok.mp h
      obtain ⟨es, hes, -⟩ := bind_eq_ok.mp h
      rcases hm.cases_head with rfl | ⟨k, ⟨names', hnames', name, hname, hk, hexternal⟩, hkm⟩
      · intro hentangled
        obtain ⟨f, hf, -⟩ := (g.endsUnless_precheck n.policy).fails hentangled
        cases hf.symm.trans hprecheck
      · obtain rfl := Except.ok.inj (hnames.symm.trans hnames')
        obtain ⟨e, he⟩ := exists_ok_of_mapM hes hname
        unfold evaluateRequired at he
        rw [hk, ok_bind, hexternal, if_neg Bool.false_ne_true] at he
        exact ih he hkm

/-- A policy that is entangled itself is not evaluated, and no report says so. -/
theorem evaluatePolicy_of_isEntangled (h : g.IsEntangled g.Combines n.policy) (inputs : Inputs) :
    ∃ f, g.evaluatePolicy inputs n = .error f ∧ f.isReported = false := by
  obtain ⟨f, hf, hreported⟩ := (g.endsUnless_precheck n.policy).fails h
  refine ⟨f, ?_, hreported⟩
  rw [evaluatePolicy, evaluatePolicyTo_succ, if_neg (by simp [Json.among]), hf, error_bind]

end Evaluation

section Scores

variable {endless : Prop} {round : Rat → Rat} {cfg : Settings} {reader : Option ReadabilityReader}

theorem failsOnly_surveyTrees (g : PolicyGraph) (policy : Name) :
    FailsOnly (Fault.IsInner (g.IsEntangled g.HasOperand policy)) (g.surveyTrees policy) := by
  refine .bind ((g.failsOnly_ruleChildren _).bind fun bs hbs => .mapM fun b hb => ?_) fun _ _ =>
    (g.failsOnly_clausesOf policy).map.bind fun _ _ => .ok _
  exact (failsOnly_reachTo _ b.node).imp fun _ hf =>
    hf.imp (isEntangled_of_not_endsWithin (fun _ _ => id) hbs hb)

theorem not_isEntangled_of_surveyTrees {x : List Reach × List Node}
    (h : g.surveyTrees policy = .ok x) : ¬ g.IsEntangled g.HasOperand policy := by
  obtain ⟨reaches, hreaches, -⟩ := bind_eq_ok.mp h
  obtain ⟨bs, hbs, hreaches⟩ := bind_eq_ok.mp hreaches
  refine not_isEntangled hbs fun b hb => ?_
  obtain ⟨r, hr⟩ := exists_ok_of_mapM hreaches hb
  exact endsWithin_of_reachTo hr

theorem failsOnly_surveyLinks (g : PolicyGraph) (policy : Name) :
    FailsOnly (Fault.IsInner endless) (g.surveyLinks policy) :=
  (g.failsOnly_outEdges _ _).map.bind fun _ _ => (g.failsOnly_clausesOf policy).bind fun _ _ =>
    .ok _

theorem failsOnly_clauseReadability (cfg : Settings) (reader : Option ReadabilityReader)
    (n : Node) : FailsOnly (Fault.IsInner endless) (clauseReadability cfg reader n) := by
  unfold clauseReadability
  split
  · exact .ok _
  · exact (Fault.failsOnly_number _).map

/-- Policies are measured, unless one of them is entangled; then they are not, and no report says
so. -/
theorem endsUnless_measure (g : PolicyGraph) (policies : List Name) :
    EndsUnless (∃ policy ∈ policies, g.IsEntangled g.HasOperand policy)
      (g.measure round cfg reader policies) := by
  refine EndsUnless.bind (x := policies.mapM g.surveyTrees) (.of_failsOnly ?_ ?_) fun trees _ => ?_
  · exact .mapM fun policy hpolicy => (g.failsOnly_surveyTrees policy).imp fun _ hf =>
      hf.imp fun hentangled => ⟨policy, hpolicy, hentangled⟩
  · rintro trees htrees ⟨policy, hpolicy, hentangled⟩
    obtain ⟨x, hx⟩ := exists_ok_of_mapM htrees hpolicy
    exact not_isEntangled_of_surveyTrees hx hentangled
  · refine FailsOnly.never_unbounded (.bind (.mapM fun policy _ =>
      g.failsOnly_surveyLinks policy) fun links _ => ?_)
    exact .bind (.mapM fun n _ => failsOnly_clauseReadability cfg reader n) fun _ _ => .ok _

/-- The score of policies is found, unless one of them is entangled; then it is not, and no report
says so. -/
theorem endsUnless_scoreOf {policy : Json} {policies : List Name}
    (h : g.scoredPolicies policy = .ok policies) :
    EndsUnless (∃ policy ∈ policies, g.IsEntangled g.HasOperand policy)
      (scoreOf round cfg reader g policy) := by
  rw [scoreOf, h]
  exact (g.endsUnless_measure policies).bind fun _ _ => .ok _

theorem outcome_score {policy : Json} :
    (g.score cfg reader policy).outcome = scoreOf Number.keep cfg reader g policy := by
  unfold score
  split <;> simp_all

end Scores

end PolicyGraph
end Eligibility
