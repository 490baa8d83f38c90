import Eligibility.Proofs.MoreInputs
import Eligibility.Proofs.ProperEndings
import Eligibility.Proofs.SettledValues
/-!
# Graphs that are loaded

**Payloads.**  A payload is a rule set, which is validated, or the record of a graph, of which
only identifiers and the ends of edges are checked.  So the graph of a rule set has no
circle among its conditions, and that of a record may have one.

**Ends.**  Where no circle is within reach of a policy, an operation on it does not go too deep;
where one is, the operation has no result, and the fault in which it ends is not reported.

**Results.**
* `load_ends`: where the operations on a loaded graph end, and how.
* `not_forall_load_ends`: the record of a graph with a circle is loaded, and the check of its
  policy goes too deep.
-/

namespace Eligibility
open Attempt

namespace PolicyGraph

variable {cfg : Settings} {g : PolicyGraph} {payload : Json}

section Ends

/-- How an evaluation of the policy of a node ends: not too deep, unless the policy or one that it
goes on to is entangled; with a result only if none is; and with a fault that is not reported
if the policy is entangled itself. -/
structure EvaluationEnds {α : Type} (g : PolicyGraph) (n : Node) (x : Except Fault α) : Prop where
  ends : (∀ m, Relation.ReflTransGen g.GoesOnTo n m → ¬ g.IsEntangled g.Combines m.policy) →
    x ≠ .error .unbounded
  clear : ∀ a, x = .ok a →
    ∀ m, Relation.ReflTransGen g.GoesOnTo n m → ¬ g.IsEntangled g.Combines m.policy
  fails : g.IsEntangled g.Combines n.policy → ∃ f, x = .error f ∧ f.isReported = false

/-- A graph on which operations end where no circle is within reach, and only there. -/
structure EndsWhereClear (g : PolicyGraph) : Prop where
  /-- The descents are well-founded at a node exactly if no way from it leads to a circle. -/
  wellFounded : ∀ R, (∀ m n, R m n → g.HasOperand m n) → ∀ n ∈ g.nodes,
    (Acc (Function.swap R) n ↔ ¬ LeadsToCircle R n)
  precheck : ∀ policy, EndsUnless (g.IsEntangled g.Combines policy) (g.precheck policy)
  evaluation : ∀ settings inputs policy n, g.declaredPolicy policy = .ok n →
    g.EvaluationEnds n (g.run settings inputs policy).outcome
  query : ∀ settings policy inputs, (∀ n, g.declaredPolicy policy = .ok n →
      ∀ m, Relation.ReflTransGen g.GoesOnTo n m → ¬ g.IsEntangled g.Combines m.policy) →
    (g.evaluate settings policy inputs).outcome ≠ .error .unbounded
  score : ∀ settings reader policy policies, g.scoredPolicies policy = .ok policies →
    EndsUnless (∃ q ∈ policies, g.IsEntangled g.HasOperand q)
      (g.score settings reader policy).outcome
  detection : ∀ table, EndsUnless g.HasEntangled (g.detect table none none).outcome
  partialDetection : ¬ g.HasEntangled → ∀ table passes stopAfter,
    (g.detect table passes stopAfter).outcome ≠ .error .unbounded

/-- A graph on which every operation ends, with a result or a fault that is reported. -/
structure EndsAlways (g : PolicyGraph) : Prop where
  wellFounded : ∀ n, Acc (Function.swap g.HasOperand) n
  precheck : ∀ a, g.HasPolicy a → EndsProperly (g.precheck (.str a))
  evaluation : ∀ settings policy inputs es, Fault.mappingOrEmpty inputs = .ok es →
    (∀ q, Query.check policy es = .ok q → Rule.InRange q.inputs) →
    EndsProperly (g.evaluate settings policy inputs).outcome
  score : ∀ settings reader policy, IsNumeric reader →
    EndsProperly (g.score settings reader (Json.str? policy)).outcome
  detection : ∀ table, (∀ i ∈ table, i.IsFitting) → ∀ passes stopAfter,
    ∃ r, (g.detect table passes stopAfter).outcome = .ok r

theorem conclude_ne_unbounded (settings : Settings) (policy : Name) (e : Evaluated) :
    FailsOnly (· ≠ .unbounded) (conclude settings policy e) :=
  (Fault.failsOnly_ofChecked _).never_unbounded

/-- The evaluation of a declared policy does not go too deep where no circle is within reach. -/
theorem run_ne_unbounded (hnames : ∀ n ∈ g.nodes, n.policy.alike n.policy = true)
    (settings : Settings) (inputs : Inputs) {policy : Name}
    (hclear : ∀ n, g.declaredPolicy policy = .ok n → ∀ m, Relation.ReflTransGen g.GoesOnTo n m →
      ¬ g.IsEntangled g.Combines m.policy) :
    FailsOnly (· ≠ .unbounded) (g.run settings inputs policy).outcome := by
  rw [run_outcome]
  have hdeclared : FailsOnly (· ≠ .unbounded) (g.declaredPolicy policy) :=
    (declaredPolicy_reported g policy).imp fun f hf hun => by simp [hun, Fault.isReported] at hf
  refine hdeclared.bind fun n hn => .bind ?_ fun e _ => conclude_ne_unbounded settings policy e
  have hmem := mem_of_node? (declaredPolicy_eq_ok hn).1
  exact evaluatePolicyTo_ne_unbounded hnames hmem g.isStack_nil (by simp) (hclear n hn)

/-- How the evaluation of a declared policy ends. -/
theorem evaluationEnds_run (hnames : ∀ n ∈ g.nodes, n.policy.alike n.policy = true)
    (settings : Settings) (inputs : Inputs) {policy : Name} {n : Node}
    (hn : g.declaredPolicy policy = .ok n) :
    g.EvaluationEnds n (g.run settings inputs policy).outcome where
  ends hclear := by
    refine (run_ne_unbounded hnames settings inputs fun m hm => ?_).ne_error (· rfl)
    exact Except.ok.inj (hn.symm.trans hm) ▸ hclear
  clear v hv m hm := by
    rw [run_outcome, verdict, hn, ok_bind] at hv
    obtain ⟨e, he, -⟩ := bind_eq_ok.mp hv
    exact not_isEntangled_of_evaluatePolicyTo he hm
  fails hentangled := by
    obtain ⟨f, hf, hreported⟩ := evaluatePolicy_of_isEntangled hentangled inputs
    refine ⟨f, ?_, hreported⟩
    rw [run_outcome, verdict, hn, ok_bind, hf, error_bind]

/-- An evaluation against inputs given as JSON does not go too deep either. -/
theorem evaluate_ne_unbounded (hnames : ∀ n ∈ g.nodes, n.policy.alike n.policy = true)
    (settings : Settings) {policy inputs : Json}
    (hclear : ∀ n, g.declaredPolicy policy = .ok n → ∀ m, Relation.ReflTransGen g.GoesOnTo n m →
      ¬ g.IsEntangled g.Combines m.policy) :
    FailsOnly (· ≠ .unbounded) (g.evaluate settings policy inputs).outcome := by
  unfold evaluate
  split
  · next f hf => exact .error ((Fault.failsOnly_mappingOrEmpty inputs).never_unbounded f hf)
  · next es _ =>
    cases hq : Query.check policy es with
    | flawed fs => exact .error nofun
    | ok q =>
        obtain ⟨rfl, -⟩ := Query.check_eq_ok hq
        exact run_ne_unbounded hnames settings q.inputs hclear

/-- Where the operations on a graph end whose names of policies are like themselves. -/
theorem endsWhereClear (hnames : ∀ n ∈ g.nodes, n.policy.alike n.policy = true) :
    g.EndsWhereClear where
  wellFounded R hR n hn := acc_iff fun _ => mem_of_reflTransGen hR hn
  precheck := g.endsUnless_precheck
  evaluation settings inputs _ _ hn := evaluationEnds_run hnames settings inputs hn
  query settings _ _ hclear := (evaluate_ne_unbounded hnames settings hclear).ne_error (· rfl)
  score settings reader policy policies hpolicies := by
    rw [outcome_score]
    exact endsUnless_scoreOf hpolicies
  detection table := endsUnless_detect table g
  partialDetection hclear table passes stopAfter :=
    ((failsOnly_detect table passes stopAfter g).ne_unbounded hclear).ne_error (· rfl)

/-- Where the operations on a compiled graph end: always. -/
theorem endsAlways_of_compile (h : (RuleSet.compile cfg payload).outcome = .ok g) :
    g.EndsAlways := by
  obtain ⟨p, hp, hnamed⟩ := exists_named_plan h
  exact {
    wellFounded := fun n => (hp.endsWithin n).acc
    precheck := fun a ha => hp.precheck_reported ha
    evaluation := fun settings policy inputs es hes hin =>
      hp.evaluate_reported settings hes hin
    score := fun settings reader policy hreader => by
      rw [outcome_score]
      exact hp.scoreOf_reported hreader settings policy
    detection := fun table htable passes stopAfter =>
      hp.exists_detect hnamed htable passes stopAfter }

/-- Where the operations on a loaded graph end: where no circle is within reach, and always if the
graph is that of a rule set. -/
theorem load_ends (hpayload : payload.IsSettled) (h : (load cfg payload).outcome = .ok g) :
    g.EndsWhereClear ∧
      (isRecord payload = .ok false ∨
        (∃ settings rules, (RuleSet.compile settings rules).outcome = .ok g) → g.EndsAlways) := by
  refine ⟨endsWhereClear fun n hn => (isSettled_policy_of_load hpayload h n hn).alike_self, ?_⟩
  rintro (hrecord | ⟨settings, rules, hcompile⟩)
  · rcases load_cases h with ⟨-, hcompile⟩ | ⟨hrecord', -⟩
    · exact endsAlways_of_compile hcompile
    · cases hrecord.symm.trans hrecord'
  · exact endsAlways_of_compile hcompile

end Ends

section Knots

/-- A conjunction, and a comparison. -/
def conjunction : Node := Plan.conditionNode .standard "p"
  { id := "a", subject := "all", operator := .and, clause := "c" }

def comparison : Node := Plan.conditionNode .standard "q"
  { id := "b", subject := "status", operator := .eq, value := some (.text "x"), clause := "c" }

def knotNodes : List Node := [
  Plan.policyNode .standard { policy := "p" } [], conjunction,
  Plan.policyNode .standard { policy := "q" } [], comparison]

def knotDrafts : List Draft := [
  ⟨"policy:p", "condition:a", .dependsOn, .root 0⟩,
  ⟨"condition:a", "condition:a", .dependsOn, .operand .and 0⟩,
  ⟨"policy:q", "condition:b", .dependsOn, .root 0⟩]

/-- The graph of two policies: the rule of one is a conjunction that is its own operand, that of the
other is a comparison. -/
def knot : PolicyGraph :=
  ⟨knotNodes, Draft.number 0 knotDrafts, [], Index.of knotNodes (Draft.number 0 knotDrafts), rfl⟩

theorem load_knot : (load .standard knot.toJson).outcome = .ok knot := rfl

theorem isSettled_knot : knot.toJson.IsSettled := by
  simp [knot, knotNodes, knotDrafts, conjunction, comparison, toJson, record, Node.record,
    Edge.record, Plan.policyNode, Plan.conditionNode, Draft.number, Draft.toEdge, Label.properties,
    Entries.ofFields, Entries.mapValues, Entries.spelled, Property.toJson, Edge.numbered, Name.key,
    Json.strs, Json.str?, Json.nat, Number.one, Operand.toJson, Operand.bare]

/-- The conjunction is its own operand. -/
theorem hasOperand_knot : knot.HasOperand conjunction conjunction :=
  ⟨_, ruleChildren_eq_singleton rfl rfl rfl rfl, _, List.mem_singleton_self _, rfl⟩

theorem isEntangled_knot : knot.IsEntangled knot.Combines (.str "p") := by
  have hround : knot.Combines conjunction conjunction := ⟨rfl, hasOperand_knot⟩
  exact ⟨_, ruleChildren_eq_singleton rfl rfl rfl rfl, _, List.mem_singleton_self _,
    conjunction, .refl, .single hround⟩

/-- The descent into the conjunction comes back to it, at whatever depth it stops. -/
theorem mustHoldTo_knot (fuel : Nat) :
    knot.mustHoldTo fuel (conjunction, true) = .error .unbounded := by
  induction fuel with
  | zero => rfl
  | succ fuel ih =>
      have hoperator : conjunction.operator? = .ok (some .and) := rfl
      have hoperands : knot.ruleChildren conjunction.id = .ok _ :=
        ruleChildren_eq_singleton rfl rfl rfl rfl
      have hdemands : ∀ e : Edge, e.isNegated = false →
          demands true [⟨conjunction, e⟩] = [(conjunction, true)] := fun e he => by simp [demands, he]
      rw [mustHoldTo, if_neg (by decide), hoperator, ok_bind, if_neg (by decide), hoperands, ok_bind,
        hdemands _ rfl, List.mapM_cons, ih]
      rfl

/-- The check of the policy whose rule is the conjunction goes too deep. -/
theorem precheck_knot : knot.precheck (.str "p") = .error .unbounded := by
  have hroots : knot.rootDemands (.str "p") = .ok [(conjunction, true)] := by
    rw [rootDemands, policyRoots, Node.policyId_str, ruleChildren_eq_singleton rfl rfl rfl rfl]
    rfl
  have hpaths : knot.paths (.str "p") = .error .unbounded := by
    rw [paths, hroots, ok_bind, besideOthers, List.mapM_cons, mustHold, mustHoldTo_knot]
    rfl
  rw [precheck, contradiction?, hpaths]
  rfl

theorem not_hasOperand_knot (n : Node) : ¬ knot.HasOperand comparison n := by
  rintro ⟨bs, hbs, b, hb, -⟩
  obtain rfl := Except.ok.inj ((ruleChildren_eq_nil rfl rfl).symm.trans hbs)
  cases hb

/-- The policy whose rule is the comparison is not entangled. -/
theorem not_isEntangled_knot {R : Node → Node → Prop} (hR : ∀ m n, R m n → knot.HasOperand m n) :
    ¬ knot.IsEntangled R (.str "q") := by
  refine not_isEntangled (ruleChildren_eq_singleton rfl rfl rfl rfl) fun b hb => ?_
  obtain rfl := List.mem_singleton.mp hb
  exact fun n hn => absurd (hR _ n hn) (not_hasOperand_knot n)

/-- The record of a graph with a circle is loaded, and the check of its policy goes too deep. -/
theorem not_forall_load_ends : ¬ ∀ (cfg : Settings) (payload : Json) (g : PolicyGraph)
    (policy : Name), (load cfg payload).outcome = .ok g → policy ∈ g.policyIds false →
      EndsProperly (g.precheck policy) := by
  intro hall
  have hproper := hall .standard _ knot (.str "p") load_knot List.mem_cons_self
  exact nomatch hproper _ precheck_knot

/-- Beside an entangled policy, which has no result, another one is evaluated and scored. -/
theorem load_ends_knot : knot.toJson.IsSettled ∧ (load .standard knot.toJson).outcome = .ok knot ∧
    (∃ f, knot.precheck (.str "p") = .error f ∧ f.isReported = false) ∧
    (∀ settings inputs, (knot.run settings inputs (.str "q")).outcome ≠ .error .unbounded) ∧
    ∀ settings reader, (knot.score settings reader (.str "q")).outcome ≠ .error .unbounded := by
  obtain ⟨h, -⟩ := load_ends isSettled_knot load_knot
  refine ⟨isSettled_knot, load_knot, (h.precheck _).fails isEntangled_knot, ?_, ?_⟩
  · intro settings inputs
    have hq : knot.declaredPolicy (.str "q") = .ok (Plan.policyNode .standard { policy := "q" } []) :=
      rfl
    refine (h.evaluation settings inputs _ _ hq).ends fun m hm => ?_
    rcases hm.cases_head with rfl | ⟨k, ⟨names, hnames, name, hname, -⟩, -⟩
    · exact not_isEntangled_knot hasOperand_of_combines
    · obtain rfl := Except.ok.inj (Eq.symm hnames)
      cases hname
  · intro settings reader
    refine (h.score settings reader (.str "q") [.str "q"] rfl).ends ?_
    rintro ⟨q, hq, hentangled⟩
    obtain rfl := List.mem_singleton.mp hq
    exact not_isEntangled_knot (fun _ _ => id) hentangled

end Knots

end PolicyGraph
end Eligibility
