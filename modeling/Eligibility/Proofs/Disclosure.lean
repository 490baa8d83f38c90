import Eligibility.Proofs.Legibility
import Eligibility.Proofs.MoreInputs
/-!
# What log events disclose

**Findings.**  Every operand of a rule, every rule of a policy and every policy that it requires
is evaluated, whatever the others came to.  So the number of findings is that of the graph, and a
confidence is combined without a look at truth values.

**Events.**  The event of a verdict says how many steps it has and how confident it is, which the
inputs do not change, and its status.  Runs that agree in the statuses log the same.

**Results.**
* `Evaluated.Resembles`: evaluations that differ in nothing an event shows but the status.
* `PolicyGraph.resembles_evaluateRule`, `PolicyGraph.resembles_evaluatePolicyTo`: rules and
  policies under any two inputs.
* `PolicyGraph.events_of_same_statuses`: evaluations and simulations with the same statuses log
  the same events.
-/

namespace Eligibility
open Schema

section Confidences

variable {os os' : List Outcome} {x y : Outcome}

theorem Outcome.confidence_conjoin (o : Outcome) (os : List Outcome) :
    (conjoin o os).confidence = (os.map confidence).foldl Number.min o.confidence := by
  rw [List.foldl_map]
  rfl

theorem Outcome.confidence_disjoin (o : Outcome) (os : List Outcome) :
    (disjoin o os).confidence = (os.map confidence).foldl Number.max o.confidence := by
  rw [List.foldl_map]
  rfl

@[simp] theorem Outcome.confidence_negateIf (b : Bool) (o : Outcome) :
    (o.negateIf b).confidence = o.confidence := by
  cases b <;> rfl

/-- An operator combines confidences without a look at truth values. -/
theorem PolicyGraph.confidence_combine {op : Option Operator}
    (h : os.map Outcome.confidence = os'.map Outcome.confidence)
    (hx : combine op os = .ok x) (hy : combine op os' = .ok y) : x.confidence = y.confidence := by
  cases os with
  | nil => cases op with
    | none => cases hx
    | some op => cases op <;> cases hx
  | cons o r =>
      cases os' with
      | nil => cases h
      | cons o' r' =>
          obtain ⟨hfirst, hrest⟩ := List.cons.inj h
          rcases op with _ | op
          · cases hx
            cases hy
            exact hfirst
          cases op with
          | and =>
              cases hx
              cases hy
              rw [Outcome.confidence_conjoin, Outcome.confidence_conjoin, hfirst, hrest]
          | or =>
              cases hx
              cases hy
              rw [Outcome.confidence_disjoin, Outcome.confidence_disjoin, hfirst, hrest]
          | _ =>
              cases hx
              cases hy
              exact hfirst

end Confidences

/-- Whether two evaluations differ in nothing that an event shows, their status apart. -/
structure Evaluated.Resembles (e e' : Evaluated) : Prop where
  confidence : e.outcome.confidence = e'.outcome.confidence
  length : e.findings.length = e'.findings.length

namespace Evaluated

variable {e e' : Evaluated} {es es' : List Evaluated}

theorem Resembles.refl (e : Evaluated) : e.Resembles e := ⟨rfl, rfl⟩

theorem length_findingsOf (h : List.Forall₂ Resembles es es') :
    (findingsOf es).length = (findingsOf es').length := by
  induction h with
  | nil => rfl
  | cons hx _ ih =>
      simp only [findingsOf, List.flatMap_cons, List.length_append, hx.length] at ih ⊢
      rw [ih]

theorem map_confidence (h : List.Forall₂ Resembles es es') :
    es.map (fun e => e.outcome.confidence) = es'.map fun e => e.outcome.confidence :=
  Attempt.map_eq_map_of_forall₂ (h.flip.imp fun _ _ hx => hx.confidence)

end Evaluated

section Leaves

variable {n : Node} {inputs inputs' : Inputs} {e e' : Evaluated}

theorem evaluateGiven_shape {o : Operator} {input : String × Json} {holds : Bool} {text : String}
    (h : evaluateGiven n o input holds text = .ok e) :
    e.outcome.confidence = n.confidence ∧ e.findings.length = 1 := by
  obtain ⟨f, -, hf⟩ := Attempt.bind_eq_ok.mp h
  cases hf
  exact ⟨rfl, rfl⟩

theorem evaluateMissing_shape {o : Operator} {text : String}
    (h : evaluateMissing n o text = .ok e) :
    e.outcome.confidence = n.confidence ∧ e.findings.length = 1 := by
  obtain ⟨f, -, hf⟩ := Attempt.bind_eq_ok.mp h
  cases hf
  exact ⟨rfl, rfl⟩

/-- A comparison leaves one finding, with the confidence of its condition. -/
theorem evaluateLeaf_shape (h : evaluateLeaf inputs n = .ok e) :
    e.outcome.confidence = n.confidence ∧ e.findings.length = 1 := by
  obtain ⟨c, -, h⟩ := Attempt.bind_eq_ok.mp h
  obtain ⟨text, -, h⟩ := Attempt.bind_eq_ok.mp h
  split at h
  next o v _ _ =>
    split at h
    next input _ =>
      unfold evaluateSupplied at h
      split at h
      · exact evaluateGiven_shape h
      · exact evaluateGiven_shape h
      · exact evaluateGiven_shape h
      · cases h
      · cases h
    · exact evaluateMissing_shape h
  · cases h

theorem resembles_evaluateLeaf (h : evaluateLeaf inputs n = .ok e)
    (h' : evaluateLeaf inputs' n = .ok e') : e.Resembles e' := by
  obtain ⟨hconfidence, hlength⟩ := evaluateLeaf_shape h
  obtain ⟨hconfidence', hlength'⟩ := evaluateLeaf_shape h'
  exact ⟨hconfidence.trans hconfidence'.symm, hlength.trans hlength'.symm⟩

end Leaves

namespace PolicyGraph

variable {g : PolicyGraph} {inputs inputs' : Inputs} {n : Node} {e e' : Evaluated}

section Rules

/-- Operands that resemble each other make rules that do. -/
theorem resembles_concludeRule {es es' : List (Evaluated × Bool)}
    (hes : List.Forall₂ (fun x y => x.1.Resembles y.1 ∧ x.2 = y.2) es es')
    (h : concludeRule n es = .ok e) (h' : concludeRule n es' = .ok e') : e.Resembles e' := by
  have hconfidences : (es.map fun x => x.1.outcome.negateIf x.2).map Outcome.confidence =
      (es'.map fun x => x.1.outcome.negateIf x.2).map Outcome.confidence := by
    simp only [List.map_map, Function.comp_def, Outcome.confidence_negateIf]
    exact Attempt.map_eq_map_of_forall₂ (hes.flip.imp fun _ _ hx => hx.1.confidence)
  have hparts : List.Forall₂ Evaluated.Resembles (es.map (·.1)) (es'.map (·.1)) := by
    rw [List.forall₂_map_left_iff, List.forall₂_map_right_iff]
    exact hes.imp fun _ _ hx => hx.1
  obtain ⟨o, ho, h⟩ := Attempt.bind_eq_ok.mp h
  rw [concludeRule, ho, Attempt.ok_bind] at h'
  obtain ⟨x, hx, h⟩ := Attempt.bind_eq_ok.mp h
  obtain ⟨x', hx', h'⟩ := Attempt.bind_eq_ok.mp h'
  cases o with
  | none => cases h
  | some o =>
      obtain ⟨f, -, hf⟩ := Attempt.bind_eq_ok.mp h
      obtain ⟨f', -, hf'⟩ := Attempt.bind_eq_ok.mp h'
      cases hf
      cases hf'
      refine ⟨confidence_combine hconfidences hx hx', ?_⟩
      simp only [List.length_append, List.length_singleton, Evaluated.length_findingsOf hparts]

/-- Every operand of a rule is evaluated, so two inputs give rules that resemble each other. -/
theorem resembles_evaluateRule (fuel : Nat) (h : g.evaluateRule inputs fuel n = .ok e)
    (h' : g.evaluateRule inputs' fuel n = .ok e') : e.Resembles e' := by
  induction fuel generalizing n e e' with
  | zero => cases h
  | succ fuel ih =>
      rw [evaluateRule] at h h'
      split at h
      next hleaf =>
        rw [if_pos hleaf] at h'
        exact resembles_evaluateLeaf h h'
      next hleaf =>
        rw [if_neg hleaf] at h'
        obtain ⟨bs, hbs, h⟩ := Attempt.bind_eq_ok.mp h
        rw [hbs, Attempt.ok_bind] at h'
        obtain ⟨es, hes, h⟩ := Attempt.bind_eq_ok.mp h
        obtain ⟨es', hes', h'⟩ := Attempt.bind_eq_ok.mp h'
        refine resembles_concludeRule ?_ h h'
        refine Attempt.forall₂_join (Attempt.mapM_eq_ok.mp hes) (Attempt.mapM_eq_ok.mp hes') ?_
        intro b x y hx hy
        obtain ⟨e, he, rfl⟩ := Attempt.map_eq_ok.mp hx
        obtain ⟨e', he', rfl⟩ := Attempt.map_eq_ok.mp hy
        exact ⟨ih he he', rfl⟩

end Rules

section Policies

/-- Rules and requirements that resemble each other make policies that do. -/
theorem resembles_concludePolicy {es es' : List Evaluated}
    (hes : List.Forall₂ Evaluated.Resembles es es') (h : g.concludePolicy n es = .ok e)
    (h' : g.concludePolicy n es' = .ok e') : e.Resembles e' := by
  have hlength := Evaluated.length_findingsOf hes
  have hconfidences := Evaluated.map_confidence hes
  cases hes with
  | nil =>
      obtain rfl : e = e' := Except.ok.inj (h.symm.trans h')
      exact .refl e
  | @cons x x' r r' hx hr =>
      cases hr with
      | nil =>
          cases h
          cases h'
          exact hx
      | cons hy hr =>
          obtain ⟨clause, hclause, h⟩ := Attempt.bind_eq_ok.mp h
          obtain ⟨f, -, hf⟩ := Attempt.bind_eq_ok.mp h
          obtain ⟨clause', hclause', h'⟩ := Attempt.bind_eq_ok.mp h'
          obtain ⟨f', -, hf'⟩ := Attempt.bind_eq_ok.mp h'
          cases hf
          cases hf'
          refine ⟨?_, by simp only [List.length_append, List.length_singleton, hlength]⟩
          obtain ⟨-, hrest⟩ := List.cons.inj hconfidences
          rw [Outcome.confidence_conjoin, Outcome.confidence_conjoin, hx.confidence, List.map_map,
            List.map_map]
          exact congrArg (List.foldl Number.min _) hrest

theorem resembles_evaluateRoots {policy : Name} {own own' : List Evaluated}
    (h : g.evaluateRoots inputs policy = .ok own) (h' : g.evaluateRoots inputs' policy = .ok own') :
    List.Forall₂ Evaluated.Resembles own own' := by
  obtain ⟨roots, hroots, h⟩ := Attempt.bind_eq_ok.mp h
  rw [evaluateRoots, hroots, Attempt.ok_bind] at h'
  exact Attempt.forall₂_join (Attempt.mapM_eq_ok.mp h) (Attempt.mapM_eq_ok.mp h')
    fun _ _ _ => resembles_evaluateRule _

/-- A requirement resembles itself for two inputs where the declared policies do. -/
theorem resembles_evaluateRequired {fuel : Nat} {stack : List Name} {policy name : Name}
    (hrest : ∀ {m x y}, g.evaluatePolicyTo inputs fuel (stack ++ [policy]) m = .ok x →
      g.evaluatePolicyTo inputs' fuel (stack ++ [policy]) m = .ok y → x.Resembles y)
    (h : g.evaluateRequired inputs fuel stack policy name = .ok e)
    (h' : g.evaluateRequired inputs' fuel stack policy name = .ok e') : e.Resembles e' := by
  obtain ⟨m, hm, h⟩ := Attempt.bind_eq_ok.mp h
  rw [evaluateRequired, hm, Attempt.ok_bind] at h'
  split at h
  next hexternal =>
    -- a policy that is only mentioned is reported without the inputs
    rw [if_pos hexternal] at h'
    obtain rfl : e = e' := Except.ok.inj (h.symm.trans h')
    exact .refl e
  next hexternal =>
    rw [if_neg hexternal] at h'
    exact hrest h h'

/-- Every rule and every requirement of a policy is evaluated, so two inputs give policies that
resemble each other. -/
theorem resembles_evaluatePolicyTo (fuel : Nat) (stack : List Name)
    (h : g.evaluatePolicyTo inputs fuel stack n = .ok e)
    (h' : g.evaluatePolicyTo inputs' fuel stack n = .ok e') : e.Resembles e' := by
  induction fuel generalizing stack n e e' with
  | zero => cases h
  | succ fuel ih =>
      rw [evaluatePolicyTo_succ] at h h'
      split at h
      · obtain ⟨f, -, hf⟩ := Attempt.bind_eq_ok.mp h
        cases hf
      next hfresh =>
      rw [if_neg hfresh] at h'
      obtain ⟨-, -, h⟩ := Attempt.bind_eq_ok.mp h
      obtain ⟨own, hown, h⟩ := Attempt.bind_eq_ok.mp h
      obtain ⟨names, hnames, h⟩ := Attempt.bind_eq_ok.mp h
      obtain ⟨-, -, h'⟩ := Attempt.bind_eq_ok.mp h'
      obtain ⟨own', hown', h'⟩ := Attempt.bind_eq_ok.mp h'
      rw [hnames, Attempt.ok_bind] at h'
      obtain ⟨required, hrequired, h⟩ := Attempt.bind_eq_ok.mp h
      obtain ⟨required', hrequired', h'⟩ := Attempt.bind_eq_ok.mp h'
      have hrequireds : List.Forall₂ Evaluated.Resembles required required' :=
        Attempt.forall₂_join (Attempt.mapM_eq_ok.mp hrequired) (Attempt.mapM_eq_ok.mp hrequired')
          fun _ _ _ => resembles_evaluateRequired (ih _)
      have hall : List.Forall₂ Evaluated.Resembles (own ++ required) (own' ++ required') :=
        List.rel_append (resembles_evaluateRoots hown hown') hrequireds
      exact resembles_concludePolicy hall h h'

end Policies

section Verdicts

variable {cfg : Settings} {policy : Name} {v w : Verdict}

theorem policy_of_verdict (h : g.verdict cfg inputs policy = .ok v) : policy = .str v.policy := by
  obtain ⟨m, -, h⟩ := Attempt.bind_eq_ok.mp h
  obtain ⟨e, -, h⟩ := Attempt.bind_eq_ok.mp h
  cases policy with
  | str s => cases h; rfl
  | _ => cases h

@[simp] theorem length_enumerate (k : Nat) (fs : List Finding) :
    (Step.enumerate k fs).length = fs.length := by
  induction fs generalizing k with
  | nil => rfl
  | cons f r ih => rw [Step.enumerate, List.length_cons, ih, List.length_cons]

/-- The number of steps and the confidence of a verdict do not depend on the inputs. -/
theorem shape_of_verdict (h : g.verdict cfg inputs policy = .ok v)
    (h' : g.verdict cfg inputs' policy = .ok w) :
    v.trace.length = w.trace.length ∧ v.confidence = w.confidence := by
  obtain ⟨s, rfl⟩ : ∃ s, policy = .str s := ⟨v.policy, policy_of_verdict h⟩
  obtain ⟨m, hm, h⟩ := Attempt.bind_eq_ok.mp h
  rw [verdict, hm, Attempt.ok_bind] at h'
  obtain ⟨e, he, h⟩ := Attempt.bind_eq_ok.mp h
  obtain ⟨e', he', h'⟩ := Attempt.bind_eq_ok.mp h'
  have hresembles := resembles_evaluatePolicyTo _ _ he he'
  cases h
  cases h'
  refine ⟨?_, hresembles.confidence⟩
  simp only [length_enumerate, hresembles.length]

/-- Verdicts on a policy that agree in the status have the same event. -/
theorem verdictEvent_eq (h : g.verdict cfg inputs policy = .ok v)
    (h' : g.verdict cfg inputs' policy = .ok w) (hstatus : v.status = w.status) :
    verdictEvent policy v = verdictEvent policy w := by
  obtain ⟨hlength, hconfidence⟩ := shape_of_verdict h h'
  rw [verdictEvent, verdictEvent, hstatus, hlength, hconfidence]

theorem run_eq (h : g.verdict cfg inputs policy = .ok v) :
    g.run cfg inputs policy = ⟨[verdictEvent policy v], .ok v⟩ := by
  rw [run, h]

end Verdicts

section Simulations

variable {cfg : Settings} {vs ws : List Verdict}

/-- A run over policies that ends has the verdict on each, and their events. -/
theorem runAll_eq_ok {ps : List Name} (h : (g.runAll cfg inputs ps).outcome = .ok vs) :
    List.Forall₂ (fun p v => g.verdict cfg inputs p = .ok v) ps vs ∧
      (g.runAll cfg inputs ps).events = vs.map fun v => verdictEvent (.str v.policy) v := by
  induction ps generalizing vs with
  | nil =>
      cases h
      exact ⟨.nil, rfl⟩
  | cons p r ih =>
      rw [runAll] at h ⊢
      cases hv : g.verdict cfg inputs p with
      | error f => simp [run, hv, Logged.bind] at h
      | ok v =>
          rw [run_eq hv] at h ⊢
          cases hr : (g.runAll cfg inputs r).outcome with
          | error f => simp [Logged.bind, hr] at h
          | ok us =>
              obtain ⟨hall, hevents⟩ := ih hr
              obtain rfl : v :: us = vs := by simpa [Logged.bind, Logged.pure, hr] using h
              refine ⟨.cons hv hall, ?_⟩
              simp [Logged.bind, Logged.pure, hr, hevents, policy_of_verdict hv]

theorem statusCounts_eq (h : vs.map Verdict.status = ws.map Verdict.status) :
    statusCounts vs = statusCounts ws := by
  have hcount : ∀ (us : List Verdict) (s : Status), (us.filter fun v => v.status = s).length =
      ((us.map Verdict.status).filter fun t => t = s).length := by
    intro us s
    rw [List.filter_map, List.length_map]
    rfl
  simp only [statusCounts, hcount, h]

/-- Whether verdicts are on the same policy, with the same status. -/
def Coincide (v w : Verdict) : Prop := v.policy = w.policy ∧ v.status = w.status

/-- Whether entries are on the same policy, with the same status. -/
def EntriesCoincide (x y : String × Verdict) : Prop := x.1 = y.1 ∧ x.2.status = y.2.status

/-- The first verdict on each policy is kept on both sides. -/
theorem entriesCoincide_byPolicy (h : List.Forall₂ Coincide vs ws) :
    List.Forall₂ EntriesCoincide (byPolicy vs) (byPolicy ws) := by
  have hfold : ∀ acc acc', List.Forall₂ EntriesCoincide acc acc' →
      List.Forall₂ EntriesCoincide
        (vs.foldl (fun acc v => if acc.any (·.1 = v.policy) then acc else acc ++ [(v.policy, v)]) acc)
        (ws.foldl (fun acc v => if acc.any (·.1 = v.policy) then acc else acc ++ [(v.policy, v)])
          acc') := by
    induction h with
    | nil => exact fun _ _ hacc => hacc
    | @cons v w vs ws hvw _ ih =>
        intro acc acc' hacc
        obtain ⟨hpolicy, hstatus⟩ := hvw
        have hnames : acc'.map Prod.fst = acc.map Prod.fst :=
          Attempt.map_eq_map_of_forall₂ (hacc.imp fun _ _ hx => hx.1.symm)
        have hany : ∀ us : List (String × Verdict), us.any (·.1 = w.policy) =
            (us.map Prod.fst).any (· = w.policy) := fun us => by
          rw [List.any_map]
          rfl
        rw [List.foldl_cons, List.foldl_cons, hpolicy, hany, hany, hnames]
        split
        · exact ih acc acc' hacc
        · refine ih _ _ (List.rel_append hacc ?_)
          exact .cons ⟨rfl, hstatus⟩ .nil
  exact hfold [] [] .nil

theorem byPolicy_append (vs : List Verdict) (v : Verdict) :
    byPolicy (vs ++ [v]) = if (byPolicy vs).any (·.1 = v.policy) then byPolicy vs
      else byPolicy vs ++ [(v.policy, v)] := by
  rw [byPolicy, List.foldl_append]
  rfl

theorem of_mem_byPolicy {a : String} {v : Verdict} (hv : (a, v) ∈ byPolicy vs) :
    v ∈ vs ∧ a = v.policy := by
  induction vs using List.reverseRecOn with
  | nil => cases hv
  | append_singleton vs w ih =>
      rw [byPolicy_append] at hv
      split at hv
      · exact ⟨List.mem_append_left _ (ih hv).1, (ih hv).2⟩
      · rcases List.mem_append.mp hv with hv | hv
        · exact ⟨List.mem_append_left _ (ih hv).1, (ih hv).2⟩
        · cases List.mem_singleton.mp hv
          exact ⟨by simp, rfl⟩

/-- Where a policy has one verdict only, that is the one that is kept. -/
theorem mem_byPolicy (hone : ∀ v ∈ vs, ∀ w ∈ vs, v.policy = w.policy → v = w) {v : Verdict}
    (hv : v ∈ vs) : (v.policy, v) ∈ byPolicy vs := by
  induction vs using List.reverseRecOn with
  | nil => cases hv
  | append_singleton vs w ih =>
      have hkept : v ∈ vs → (v.policy, v) ∈ byPolicy vs := ih fun a ha b hb =>
        hone a (List.mem_append_left _ ha) b (List.mem_append_left _ hb)
      rw [byPolicy_append]
      rcases List.mem_append.mp hv with hv | hv
      · split
        · exact hkept hv
        · exact List.mem_append_left _ (hkept hv)
      obtain rfl := List.mem_singleton.mp hv
      split
      next hany =>
        obtain ⟨⟨a, w⟩, hw, ha⟩ := List.any_eq_true.mp hany
        obtain ⟨hmem, hname⟩ := of_mem_byPolicy hw
        have ha : a = v.policy := by simpa using ha
        obtain rfl : w = v :=
          hone _ (List.mem_append_left _ hmem) _ (by simp) (hname.symm.trans ha)
        rwa [← hname]
      next => simp

theorem simulate_eq_ok {es : Entries Json} {results : List (String × Verdict)}
    (h : (g.simulate cfg es).outcome = .ok results) : ∃ inputs vs, checkInputs es = .ok inputs ∧
      List.Forall₂ (fun p v => g.verdict cfg inputs p = .ok v) (g.policyIds false) vs ∧
      results = byPolicy vs ∧ (g.simulate cfg es).events =
        vs.map (fun v => verdictEvent (.str v.policy) v) ++ [simulationEvent results] := by
  unfold simulate at h ⊢
  cases hin : checkInputs es with
  | error f => simp [hin, Logged.bind, Logged.ofExcept] at h
  | ok inputs =>
      cases hall : (g.runAll cfg inputs (g.policyIds false)).outcome with
      | error f => simp [hin, hall, Logged.bind, Logged.ofExcept] at h
      | ok vs =>
          obtain ⟨hvs, hevents⟩ := runAll_eq_ok hall
          obtain rfl : byPolicy vs = results := by
            simpa [hin, hall, Logged.bind, Logged.ofExcept, Logged.log, Logged.pure] using h
          refine ⟨inputs, vs, rfl, hvs, rfl, ?_⟩
          simp [hall, hevents, Logged.bind, Logged.ofExcept, Logged.log, Logged.pure]

/-- The kept verdicts of a simulation are on the policies that they are kept for. -/
theorem verdict_of_mem_simulate {es : Entries Json} {results : List (String × Verdict)}
    (h : (g.simulate cfg es).outcome = .ok results) :
    ∃ inputs, checkInputs es = .ok inputs ∧
      ∀ a v, (a, v) ∈ results → g.verdict cfg inputs (.str a) = .ok v := by
  obtain ⟨inputs, vs, hin, hvs, rfl, -⟩ := simulate_eq_ok h
  refine ⟨inputs, hin, fun a v hv => ?_⟩
  obtain ⟨hmem, hname⟩ := of_mem_byPolicy hv
  obtain ⟨p, -, hp⟩ := Attempt.exists_left hvs hmem
  obtain rfl : p = .str a := by rw [policy_of_verdict hp, hname]
  exact hp

/-- Simulations with the same status for every policy log the same events. -/
theorem simulate_events {es es' : Entries Json} {results results' : List (String × Verdict)}
    (h : (g.simulate cfg es).outcome = .ok results)
    (h' : (g.simulate cfg es').outcome = .ok results')
    (hstatus : ∀ a v w, (a, v) ∈ results → (a, w) ∈ results' → v.status = w.status) :
    (g.simulate cfg es).events = (g.simulate cfg es').events := by
  obtain ⟨inputs, vs, -, hvs, rfl, hevents⟩ := simulate_eq_ok h
  obtain ⟨inputs', ws, -, hws, rfl, hevents'⟩ := simulate_eq_ok h'
  have hone : ∀ {inputs us}, List.Forall₂ (fun p v => g.verdict cfg inputs p = .ok v)
      (g.policyIds false) us → ∀ v ∈ us, ∀ w ∈ us, v.policy = w.policy → v = w := by
    intro inputs us hus v hv w hw hvw
    obtain ⟨p, -, hpv⟩ := Attempt.exists_left hus hv
    obtain ⟨q, -, hqw⟩ := Attempt.exists_left hus hw
    obtain rfl : p = q := by rw [policy_of_verdict hpv, policy_of_verdict hqw, hvw]
    exact Except.ok.inj (hpv.symm.trans hqw)
  have hpairs : List.Forall₂ (fun v w => Coincide v w ∧
      verdictEvent (.str w.policy) w = verdictEvent (.str v.policy) v) vs ws := by
    refine Attempt.forall₂_join ((List.forall₂_and_left _ _).mpr ⟨fun p hp => hp, hvs⟩) hws ?_
    rintro p v w ⟨hp, hv⟩ hw
    obtain ⟨v', hmem, hv'⟩ := Attempt.exists_right hvs hp
    obtain rfl : v' = v := Except.ok.inj (hv'.symm.trans hv)
    obtain ⟨w', hmem', hw'⟩ := Attempt.exists_right hws hp
    obtain rfl : w' = w := Except.ok.inj (hw'.symm.trans hw)
    have hpolicy : v'.policy = w'.policy :=
      Json.str.inj ((policy_of_verdict hv).symm.trans (policy_of_verdict hw))
    have hsame : v'.status = w'.status :=
      hstatus w'.policy v' w' (hpolicy ▸ mem_byPolicy (hone hvs) hmem)
        (mem_byPolicy (hone hws) hmem')
    refine ⟨⟨hpolicy, hsame⟩, ?_⟩
    rw [hpolicy, ← policy_of_verdict hw]
    exact (verdictEvent_eq hv hw hsame).symm
  have hkept := entriesCoincide_byPolicy (hpairs.imp fun _ _ hx => hx.1)
  have hlast : simulationEvent (byPolicy vs) = simulationEvent (byPolicy ws) := by
    rw [simulationEvent, simulationEvent, hkept.length_eq, statusCounts_eq]
    simp only [List.map_map]
    exact Attempt.map_eq_map_of_forall₂ (hkept.flip.imp fun _ _ hx => hx.2)
  rw [hevents, hevents', hlast, Attempt.map_eq_map_of_forall₂ (hpairs.imp fun _ _ hx => hx.2)]

end Simulations

section Events

variable {cfg : Settings}

theorem events_of_evaluate {policy inputs : Json} {v : Verdict}
    (h : (g.evaluate cfg policy inputs).outcome = .ok v) : ∃ inputs' : Inputs,
      g.verdict cfg inputs' policy = .ok v ∧
        (g.evaluate cfg policy inputs).events = [verdictEvent policy v] := by
  cases hes : Fault.mappingOrEmpty inputs with
  | error f => simp [evaluate, hes] at h
  | ok es =>
      obtain ⟨q, hq, hverdict⟩ := verdict_of_evaluate hes h
      obtain ⟨hpolicy, -⟩ := Query.check_eq_ok hq
      refine ⟨q.inputs, hpolicy ▸ hverdict, ?_⟩
      rw [evaluate_eq_answer cfg g hes hq, answer, run_eq hverdict, hpolicy]

theorem simulateJson_eq {inputs : Json} {results : List (String × Verdict)}
    (h : (g.simulateJson cfg inputs).outcome = .ok results) :
    ∃ es, Fault.mapping inputs = .ok es ∧ (g.simulate cfg es).outcome = .ok results ∧
      (g.simulateJson cfg inputs).events = (g.simulate cfg es).events := by
  unfold simulateJson at h ⊢
  cases hes : Fault.mapping inputs with
  | error f => simp [hes, Logged.bind, Logged.ofExcept] at h
  | ok es =>
      refine ⟨es, rfl, ?_, ?_⟩
      · simpa [hes, Logged.bind, Logged.ofExcept] using h
      · simp [Logged.bind, Logged.ofExcept]

/-- Two evaluations of a policy that agree in the status log the same events, and so do two
simulations that agree in the status of every policy: step counts and confidences do not depend on
the inputs. -/
theorem events_of_same_statuses (cfg : Settings) (g : PolicyGraph) (inputs inputs' : Json) :
    (∀ policy v w, (g.evaluate cfg policy inputs).outcome = .ok v →
      (g.evaluate cfg policy inputs').outcome = .ok w →
      v.trace.length = w.trace.length ∧ v.confidence = w.confidence ∧
      (v.status = w.status →
        (g.evaluate cfg policy inputs).events = (g.evaluate cfg policy inputs').events)) ∧
    ∀ vs ws, (g.simulateJson cfg inputs).outcome = .ok vs →
      (g.simulateJson cfg inputs').outcome = .ok ws →
      (∀ a v w, (a, v) ∈ vs → (a, w) ∈ ws →
        v.trace.length = w.trace.length ∧ v.confidence = w.confidence) ∧
      ((∀ a v w, (a, v) ∈ vs → (a, w) ∈ ws → v.status = w.status) →
        (g.simulateJson cfg inputs).events = (g.simulateJson cfg inputs').events) := by
  constructor
  · intro policy v w hv hw
    obtain ⟨given, hv, hevents⟩ := events_of_evaluate hv
    obtain ⟨given', hw, hevents'⟩ := events_of_evaluate hw
    obtain ⟨hlength, hconfidence⟩ := shape_of_verdict hv hw
    refine ⟨hlength, hconfidence, fun hstatus => ?_⟩
    rw [hevents, hevents', verdictEvent_eq hv hw hstatus]
  · intro vs ws hvs hws
    obtain ⟨es, -, hvs, hevents⟩ := simulateJson_eq hvs
    obtain ⟨es', -, hws, hevents'⟩ := simulateJson_eq hws
    refine ⟨fun a v w hv hw => ?_, fun hstatus => ?_⟩
    · obtain ⟨given, -, hgiven⟩ := verdict_of_mem_simulate hvs
      obtain ⟨given', -, hgiven'⟩ := verdict_of_mem_simulate hws
      exact shape_of_verdict (hgiven a v hv) (hgiven' a w hw)
    · rw [hevents, hevents', simulate_events hvs hws hstatus]

end Events

section Witness

theorem exists_runAll {cfg : Settings} {ps : List Name}
    (h : ∀ p ∈ ps, ∃ v, g.verdict cfg inputs p = .ok v) :
    ∃ vs, (g.runAll cfg inputs ps).outcome = .ok vs := by
  induction ps with
  | nil => exact ⟨[], rfl⟩
  | cons p r ih =>
      obtain ⟨⟨v, hv⟩, hrest⟩ := List.forall_mem_cons.mp h
      obtain ⟨vs, hvs⟩ := ih hrest
      exact ⟨v :: vs, by simp [runAll, run_eq hv, Logged.bind, Logged.pure, hvs]⟩

theorem exists_simulate {cfg : Settings} {es : Entries Json} (hin : checkInputs es = .ok inputs)
    (h : ∀ p ∈ g.policyIds false, ∃ v, g.verdict cfg inputs p = .ok v) :
    ∃ results, (g.simulate cfg es).outcome = .ok results := by
  obtain ⟨vs, hvs⟩ := exists_runAll h
  exact ⟨byPolicy vs, by
    simp [simulate, hin, hvs, Logged.bind, Logged.ofExcept, Logged.log, Logged.pure]⟩

/-- Where the lone policy is undetermined, its evaluation and the simulation say so. -/
theorem conditional_of_lone (hvalid : lone.validate .standard = .ok lone)
    (hg : (lone.build .standard).outcome = .ok g) (h : g.IsDrawnFrom .standard lonePlan)
    (fs : Inputs) (hquery : Query.check (.str "p") (Entries.ofFields fs) = .ok ⟨"p", fs⟩)
    (hmapping : Fault.mappingOrEmpty (.obj fs) = .ok (Entries.ofFields fs))
    (hin : Rule.InRange fs) (hmeaning : (lone.meaning fs "p").map Outcome.value = some none) :
    (∃ v, (g.evaluate .standard (.str "p") (.obj fs)).outcome = .ok v ∧ v.status = .conditional) ∧
    ∃ vs, (g.simulateJson .standard (.obj fs)).outcome = .ok vs ∧
      ∀ a v, (a, v) ∈ vs → v.status = .conditional := by
  obtain ⟨v, o, hv, ho, hstatus, -⟩ := exists_verdict_of_lone hvalid hg h hquery hmapping hin
  obtain ⟨q, hq, hverdict⟩ := verdict_of_evaluate hmapping hv
  obtain rfl : (⟨"p", fs⟩ : Query) = q := by simpa [hquery] using hq
  have hconditional : v.status = .conditional := by
    rw [ho] at hmeaning
    rw [hstatus, statusOf, Option.some.inj hmeaning]
  have hchecked : checkInputs (Entries.ofFields fs) = .ok fs := by
    rw [checkInputs, (Query.check_eq_ok hquery).2]
  have hsimulate : (g.simulateJson .standard (.obj fs)).outcome =
      (g.simulate .standard (Entries.ofFields fs)).outcome := by
    simp [simulateJson, Fault.mapping, Json.mapping, Logged.bind, Logged.ofExcept]
  obtain ⟨vs, hvs⟩ : ∃ vs, (g.simulate .standard (Entries.ofFields fs)).outcome = .ok vs := by
    refine exists_simulate hchecked fun p hp => ?_
    obtain ⟨d, hd, rfl⟩ := h.exists_of_mem_policyIds hp
    simp only [lonePlan, lone, List.mem_singleton] at hd
    rw [hd]
    exact ⟨v, hverdict⟩
  refine ⟨⟨v, hv, hconditional⟩, vs, hsimulate.trans hvs, fun a w hw => ?_⟩
  obtain ⟨inputs, hin, hall⟩ := verdict_of_mem_simulate hvs
  obtain rfl : fs = inputs := Except.ok.inj (hchecked.symm.trans hin)
  have hw := hall a w hw
  obtain ⟨n, hn, -⟩ := Attempt.bind_eq_ok.mp hw
  obtain ⟨d, hd, rfl, -⟩ := h.exists_document hn
  simp only [lonePlan, lone, List.mem_singleton] at hd
  rw [hd] at hw
  obtain rfl : v = w := Except.ok.inj (hverdict.symm.trans hw)
  exact hconditional

/-- The lone policy waits for a policy declared nowhere, whether its variable is given or not. -/
theorem events_of_same_statuses_lone : ∃ (g : PolicyGraph) (v w : Verdict)
    (vs ws : List (String × Verdict)), g.IsCompiled .standard ∧
    (g.evaluate .standard (.str "p") (.obj [])).outcome = .ok v ∧
    (g.evaluate .standard (.str "p") (.obj [("status", .str "ok")])).outcome = .ok w ∧
    (g.simulateJson .standard (.obj [])).outcome = .ok vs ∧
    (g.simulateJson .standard (.obj [("status", .str "ok")])).outcome = .ok ws ∧
    v.status = w.status ∧ (∀ a x y, (a, x) ∈ vs → (a, y) ∈ ws → x.status = y.status) ∧
    (g.evaluate .standard (.str "p") (.obj [])).events =
      (g.evaluate .standard (.str "p") (.obj [("status", .str "ok")])).events ∧
    (g.simulateJson .standard (.obj [])).events =
      (g.simulateJson .standard (.obj [("status", .str "ok")])).events := by
  obtain ⟨g, hvalid, hg, h⟩ := exists_lone
  obtain ⟨⟨v, hv, hstatus⟩, vs, hvs, hstatuses⟩ :=
    conditional_of_lone hvalid hg h [] rfl rfl (by simp [Rule.InRange]) (by decide +kernel)
  obtain ⟨⟨w, hw, hstatus'⟩, ws, hws, hstatuses'⟩ :=
    conditional_of_lone hvalid hg h [("status", .str "ok")] rfl rfl
      (by simp [Rule.InRange]) (by decide +kernel)
  have hsame : v.status = w.status := hstatus.trans hstatus'.symm
  have hsames : ∀ a x y, (a, x) ∈ vs → (a, y) ∈ ws → x.status = y.status := fun a x y hx hy =>
    (hstatuses a x hx).trans (hstatuses' a y hy).symm
  obtain ⟨hevaluate, hsimulate⟩ :=
    events_of_same_statuses .standard g (.obj []) (.obj [("status", .str "ok")])
  exact ⟨g, v, w, vs, ws, ⟨lone, hvalid, hg⟩, hv, hw, hvs, hws, hsame, hsames,
    (hevaluate _ v w hv hw).2.2 hsame, (hsimulate vs ws hvs hws).2 hsames⟩

end Witness

end PolicyGraph
end Eligibility
