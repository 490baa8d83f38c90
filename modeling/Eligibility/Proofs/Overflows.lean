import Eligibility.Proofs.Compatibility
import Eligibility.Proofs.NormalForms
import Eligibility.Proofs.ProperEndings
/-!
# Integers out of the range of floats

**Comparisons.**  A number is compared with an integer in double precision, except for
inequality.  An integer that has no value there is neither compared nor passed over as a
value of another kind: it ends the evaluation.

**Evaluations.**  A policy is evaluated to a result, or one of the policies within its reach
is at fault: it contradicts itself, it requires itself, or one of its comparisons meets
such an integer.  Only the last one is not reported.

**Results.**
* `Rule.meaning_eq_none_iff`: a rule has no meaning just where a comparison of it overflows.
* `IsDrawnFrom.failsOnly_evaluateRule`: conditions are evaluated unless they overflow.
* `ask_ends`: how the evaluation of a query ends.
-/

namespace Eligibility
open Attempt

section Comparisons

/-- Whether a comparison meets an integer that it cannot be compared with in double precision. -/
def Head.Overflows (inputs : Inputs) (h : Head) : Prop :=
  ∃ x n, h.value = some (.number x) ∧ h.operator ≠ .neq ∧
    inputs.lookup h.subject = some (.int n) ∧ Number.ofInt? n = none

/-- A fitting comparison is decided, or fails on a value of another kind, or it is between a number
and an integer out of range, and not for inequality. -/
theorem Constraint.satisfiedBy_cases_of_fits {c : Constraint} (hl : c.operator.isLogical = false)
    (hfit : Head.fits c.operator c.value.kind = true) (given : Json) :
    ((∃ holds, c.satisfiedBy given = .answer holds) ∨ ∃ m, c.satisfiedBy given = .mismatch m) ∧
        (¬ ∃ x n, c.value = .number x ∧ c.operator ≠ .neq ∧ given = .int n ∧
          Number.ofInt? n = none) ∨
      c.satisfiedBy given = .outOfRange ∧ ∃ x n, c.value = .number x ∧ c.operator ≠ .neq ∧
        given = .int n ∧ Number.ofInt? n = none := by
  by_cases hgiven : ∀ n, given = .int n → (Number.ofInt? n).isSome = true
  · refine .inl ⟨Rule.satisfiedBy_cases hl hfit hgiven, ?_⟩
    rintro ⟨x, n, -, -, hn, hnone⟩
    simpa [hnone] using hgiven n hn
  · push Not at hgiven
    obtain ⟨n, rfl, hnone⟩ := hgiven
    have hnone : Number.ofInt? n = none := by simpa using hnone
    obtain ⟨subject, o, v⟩ := c
    cases v with
    | number x =>
        by_cases hne : o = .neq
        · subst hne
          exact .inl ⟨.inl ⟨_, rfl⟩, by simp⟩
        · obtain ⟨i, hi⟩ := Rule.exists_intervalOf hl hfit hne x
          refine .inr ⟨?_, x, n, rfl, hne, rfl, hnone⟩
          simp [satisfiedBy, checkNumeric, checkInt, hne, hi, hnone]
    | flag b => exact .inl ⟨.inr ⟨_, rfl⟩, by simp⟩
    | text s => exact .inl ⟨.inr ⟨_, rfl⟩, by simp⟩
    | texts ss => exact .inl ⟨.inr ⟨_, rfl⟩, by simp⟩

/-- A sound comparison has no meaning just where it overflows. -/
theorem Head.IsSound.meaning_eq_none_iff {h : Head} {n : Nat} (hs : h.IsSound n)
    (hl : h.operator.isLogical = false) {inputs : Inputs} :
    h.meaning inputs = none ↔ h.Overflows inputs := by
  obtain ⟨-, v, hv, hfit, -⟩ := hs.comparison hl
  obtain ⟨x, hx, -⟩ := hs.confidence
  simp only [Head.meaning, hv, hx, Head.Overflows]
  cases hgiven : inputs.lookup h.subject with
  | none => simp
  | some given =>
      rcases Constraint.satisfiedBy_cases_of_fits (c := ⟨h.subject, h.operator, v⟩) hl hfit
        given with ⟨⟨holds, he⟩ | ⟨m, he⟩, hno⟩ | ⟨he, hout⟩
      · simpa [he] using hno
      · simpa [he] using hno
      · simpa [he] using hout

end Comparisons

namespace Rule

/-- Whether a comparison of a tree overflows. -/
def Overflows (inputs : Inputs) (r : Rule) : Prop := ∃ h ∈ r.leafHeads, h.Overflows inputs

variable {inputs : Inputs}

/-- A combination overflows just where one of its operands does. -/
theorem overflows_iff {r : Rule} (hl : r.head.operator.isLogical = true) :
    r.Overflows inputs ↔ ∃ c ∈ r.children, c.Overflows inputs := by
  obtain ⟨h, cs⟩ := r
  rw [head_node] at hl
  simp only [Overflows, leafHeads_node hl, List.mem_flatMap, children_node]
  tauto

theorem length_of_meanings {rs : List Rule} {os : List Outcome}
    (h : meanings inputs rs = some os) : os.length = rs.length := by
  induction rs generalizing os with
  | nil =>
      cases h
      rfl
  | cons r rs ih =>
      obtain ⟨o, -, h⟩ := Option.bind_eq_some_iff.mp h
      obtain ⟨os', hrs, rfl⟩ := Option.map_eq_some_iff.mp h
      rw [List.length_cons, List.length_cons, ih hrs]

mutual

/-- A sound rule has no meaning just where it overflows. -/
theorem meaning_eq_none_iff : ∀ r : Rule, AreSound r.walk →
    (r.meaning inputs = none ↔ r.Overflows inputs)
  | node h cs, hs => by
      have hhead := hs (node h cs) (mem_walk_self _)
      rw [meaning]
      split_ifs with hl
      · rw [overflows_iff (r := node h cs) hl, children_node, ← meanings_eq_none_iff cs hs.below]
        cases hcs : meanings inputs cs with
        | none => simp
        | some os =>
            obtain ⟨o, ho⟩ := exists_meaning_of_combination hl os fun hn =>
              (length_of_meanings hcs).trans ((hhead.logical hl).2.2 hn)
            simp [ho]
      · obtain rfl := hs.children_eq_nil hl
        rw [Overflows, leafHeads_comparison hl]
        simpa using hhead.meaning_eq_none_iff (by simpa using hl)

theorem meanings_eq_none_iff : ∀ rs : List Rule, AreSound (walkAll rs) →
    (meanings inputs rs = none ↔ ∃ r ∈ rs, r.Overflows inputs)
  | [], _ => by simp [meanings]
  | r :: rs, hs => by
      have hr := meaning_eq_none_iff r hs.cons.1
      have hrs := meanings_eq_none_iff rs hs.cons.2
      rw [List.exists_mem_cons_iff, ← hr, ← hrs, meanings]
      cases meaning inputs r <;> simp

end

end Rule

namespace PolicyGraph

variable {cfg : Settings} {g : PolicyGraph} {p : Plan} {inputs : Inputs} {policy : String}

section Rules

/-- A comparison is evaluated unless it overflows. -/
theorem evaluateLeaf_cases {h : Head} {n : Nat} (hs : h.IsSound n)
    (hl : h.operator.isLogical = false) :
    (∃ e, evaluateLeaf inputs (Plan.conditionNode cfg policy h) = .ok e) ∨
      evaluateLeaf inputs (Plan.conditionNode cfg policy h) = .error .outOfRange := by
  have houtcome := evaluateLeaf_outcome cfg policy inputs hs hl
  cases hmeaning : h.meaning inputs with
  | some o =>
      cases he : evaluateLeaf inputs (Plan.conditionNode cfg policy h) with
      | ok e => exact .inl ⟨e, rfl⟩
      | error f => simp [he, hmeaning] at houtcome
  | none =>
      obtain ⟨x, m, hv, hne, hgiven, hnone⟩ := (hs.meaning_eq_none_iff hl).mp hmeaning
      obtain ⟨-, v, hv', hfit, -⟩ := hs.comparison hl
      obtain rfl := Option.some.inj (hv.symm.trans hv')
      obtain ⟨i, hi⟩ := Rule.exists_intervalOf hl hfit hne x
      right
      rw [Entries.lookup_eq] at hgiven
      simp only [evaluateLeaf, Literal.condition, Literal.operator?, Plan.conditionNode_operator?,
        Plan.conditionNode_value?, Plan.conditionNode_subject, Condition.describe, hv, if_true,
        Attempt.map_ok, Attempt.ok_bind, inputFor, hgiven, Option.map_some, evaluateSupplied,
        Constraint.satisfiedBy, Constraint.checkNumeric, Constraint.checkInt, if_neg hne, hi, hnone]

/-- A condition that is evaluated does not overflow. -/
theorem IsDrawnFrom.not_overflows_of_evaluateRule (h : g.IsDrawnFrom cfg p) {fuel : Nat} {r : Rule}
    (hr : (policy, r) ∈ p.placed) (hdepth : r.depth ≤ fuel) {e : Evaluated}
    (he : g.evaluateRule inputs fuel (Plan.conditionNode cfg policy r.head) = .ok e) :
    ¬ r.Overflows inputs := by
  rw [← Rule.meaning_eq_none_iff r (Plan.sound_walk h.sound hr),
    ← evaluateRule_outcome h inputs hr hdepth, he]
  simp

/-- Nothing but an overflow keeps a condition from its evaluation. -/
theorem IsDrawnFrom.failsOnly_evaluateRule (h : g.IsDrawnFrom cfg p) {fuel : Nat} {r : Rule}
    (hr : (policy, r) ∈ p.placed) (hdepth : r.depth ≤ fuel) :
    FailsOnly (fun f => f = .outOfRange ∧ r.Overflows inputs)
      (g.evaluateRule inputs fuel (Plan.conditionNode cfg policy r.head)) := by
  have hfaults : FailsOnly (· = .outOfRange)
      (g.evaluateRule inputs fuel (Plan.conditionNode cfg policy r.head)) := by
    induction fuel generalizing r with
    | zero =>
        obtain ⟨head, cs⟩ := r
        simp [Rule.depth] at hdepth
    | succ fuel ih =>
        have hsound := Plan.sound_walk h.sound hr
        have houtcome := evaluateRule_outcome h inputs hr hdepth
        rw [evaluateRule, Plan.conditionNode_isLeaf] at houtcome ⊢
        by_cases hl : r.head.operator.isLogical = true
        · obtain ⟨bs, hbs, hall⟩ := h.ruleChildren_condition hr
          have hbs : g.ruleChildren (Plan.conditionNode cfg policy r.head).id = .ok bs := hbs
          rw [if_neg (by simp [hl]), hbs, ok_bind] at houtcome ⊢
          refine .bind (.mapM fun b hb => ?_) fun es hes f hf => ?_
          · obtain ⟨c, hc, hnode, -⟩ := exists_left hall hb
            rw [hnode]
            exact (ih (Plan.placed_child hr hc) (depth_le_of_mem_children hdepth hc)).map
          -- where all operands are evaluated, they have meanings, and so has the rule
          · rw [hes, ok_bind, hf] at houtcome
            obtain ⟨c, hc, hover⟩ := (Rule.overflows_iff hl).mp
              ((Rule.meaning_eq_none_iff r hsound).mp houtcome.symm)
            obtain ⟨x, -, hx, -⟩ := exists_right (h.forall₂_operands hr hbs hes) hc
            exact absurd hover (h.not_overflows_of_evaluateRule
              (Plan.placed_child hr hc) (depth_le_of_mem_children hdepth hc) hx)
        · rw [if_pos (by simpa using hl)]
          rcases evaluateLeaf_cases (hsound r (Rule.mem_walk_self r)) (by simpa using hl) with
            ⟨e, he⟩ | herror
          · rw [he]
            exact .ok e
          · rw [herror]
            exact .error rfl
  intro f hf
  refine ⟨hfaults f hf, ?_⟩
  rw [← Rule.meaning_eq_none_iff r (Plan.sound_walk h.sound hr),
    ← evaluateRule_outcome h inputs hr hdepth, hf]
  rfl

end Rules

end PolicyGraph

/-- Whether a comparison of a declared policy overflows. -/
def Plan.Overflows (p : Plan) (inputs : Inputs) (policy : String) : Prop :=
  ∃ d ∈ p.documents, d.policy = policy ∧ ∃ r ∈ p.rootsOf policy, r.Overflows inputs

namespace PolicyGraph

variable {cfg : Settings} {g : PolicyGraph} {p : Plan} {inputs : Inputs} {policy : String}

section Policies

/-- Nothing but an overflow keeps the rules of a policy from their evaluation. -/
theorem IsDrawnFrom.failsOnly_evaluateRoots (h : g.IsDrawnFrom cfg p) {d : Document}
    (hd : d ∈ p.documents) :
    FailsOnly (fun f => f = .outOfRange ∧ p.Overflows inputs d.policy)
      (g.evaluateRoots inputs (.str d.policy)) := by
  obtain ⟨bs, hbs, hall⟩ := h.policyRoots_policy hd
  rw [evaluateRoots, hbs, ok_bind]
  refine .mapM fun b hb => ?_
  obtain ⟨r, hr, hnode, -⟩ := exists_left hall hb
  have hplaced := Plan.placed_root hd hr
  rw [hnode]
  exact (h.failsOnly_evaluateRule hplaced (h.hasTreesOf.depth_le_depthBound hplaced)).imp
    fun f hf => ⟨hf.1, d, hd, rfl, r, hr, hf.2⟩

/-- The rules of a policy that are evaluated have settled outcomes, and none of them overflows. -/
theorem IsDrawnFrom.spec_evaluateRoots (h : g.IsDrawnFrom cfg p) {d : Document}
    (hd : d ∈ p.documents) {own : List Evaluated}
    (hown : g.evaluateRoots inputs (.str d.policy) = .ok own) :
    (∀ e ∈ own, e.outcome.IsSettled) ∧ ∀ r ∈ p.rootsOf d.policy, ¬ r.Overflows inputs := by
  have hroots := evaluateRoots_outcomes h inputs hd
  rw [hown] at hroots
  refine ⟨fun e he => isSettled_of_roots h hd hroots.symm _ (List.mem_map_of_mem he), ?_⟩
  intro r hr
  obtain ⟨x, -, hplaced, hx⟩ := exists_right (h.forall₂_roots hd hown) hr
  exact h.not_overflows_of_evaluateRule hplaced (h.hasTreesOf.depth_le_depthBound hplaced) hx

/-- Why a policy is not evaluated: one within its reach contradicts itself, or requires itself, or
a comparison of it overflows. -/
inductive IsStoppedBy (g : PolicyGraph) (overflows : String → Prop) (start : String) : Fault → Prop
  | contradiction {t : String} {policy : Name} {k l : Cited} {subject : Name}
      (reach : Relation.ReflTransGen g.Requires start t)
      (check : g.precheck (.str t) = .error (.contradiction policy k l subject)) :
      IsStoppedBy g overflows start (.contradiction policy k l subject)
  | circle {cycle : List String} {clauses : List Name} (circle : g.IsCircleFrom start cycle) :
      IsStoppedBy g overflows start (.circularRequirement cycle clauses)
  | overflow {t : String} (reach : Relation.ReflTransGen g.Requires start t) (meets : overflows t) :
      IsStoppedBy g overflows start .outOfRange

/-- A policy that is evaluated has a settled outcome, and no policy within its reach overflows. -/
theorem IsDrawnFrom.spec_evaluatePolicyTo (h : g.IsDrawnFrom cfg p) {fuel : Nat}
    {stack : List String} {d : Document} (hd : d ∈ p.documents) {e : Evaluated}
    (he : g.evaluatePolicyTo inputs fuel (stack.map .str)
      (Plan.policyNode cfg d (p.rootsOf d.policy)) = .ok e) :
    e.outcome.IsSettled ∧
      ∀ t, Relation.ReflTransGen g.Requires d.policy t → ¬ p.Overflows inputs t := by
  refine h.induction_evaluatePolicyTo (motive := fun _ d e => e.outcome.IsSettled ∧
    ∀ t, Relation.ReflTransGen g.Requires d.policy t → ¬ p.Overflows inputs t) ?_ hd he
  intro stack d own required e hd _ hown hrequired he
  obtain ⟨hsettled, hclear⟩ := h.spec_evaluateRoots hd hown
  constructor
  · have hall : ∀ x ∈ own ++ required, x.outcome.IsSettled := by
      refine List.forall_mem_append.mpr ⟨hsettled, fun x hx => ?_⟩
      obtain ⟨t, -, -, ⟨d', -, -, hd', -⟩ | ⟨-, hx⟩⟩ := exists_left hrequired hx
      · exact hd'
      · obtain ⟨x', hx', houtcome⟩ :=
          exists_evaluateExternal h t (hasNode_of_node? (h.node?_policy hd))
        obtain rfl := Except.ok.inj (hx'.symm.trans hx)
        exact houtcome ▸ isSettled_unknownPolicy t
    obtain ⟨e', he', houtcome⟩ := exists_concludePolicy h hd hall
    obtain rfl := Except.ok.inj (he'.symm.trans he)
    refine houtcome ▸ Outcome.isSettled_conjunction fun o ho => ?_
    obtain ⟨x, hx, rfl⟩ := List.mem_map.mp ho
    exact hall x hx
  · rintro t ht ⟨d', hd', rfl, r, hr, hover⟩
    rcases Relation.ReflTransGen.cases_head ht with heq | ⟨u, hu, hut⟩
    · exact hclear r (heq ▸ hr) hover
    · obtain ⟨d'', hd'', hpolicy, hmem⟩ := h.requires_iff.mp hu
      obtain rfl := Plan.document_eq h.sound hd'' hd hpolicy
      obtain ⟨x, -, -, ⟨e', -, rfl, -, hbelow⟩ | ⟨hundeclared, -⟩⟩ :=
        exists_right hrequired (Plan.mem_firstTexts.mpr ⟨hmem, by simp⟩)
      · exact hbelow _ hut ⟨d', hd', rfl, r, hr, hover⟩
      · obtain rfl := h.eq_of_reaches hundeclared hut
        exact hundeclared (List.mem_map_of_mem hd')

/-- Nothing but a policy within reach that is at fault keeps a policy from its evaluation. -/
theorem IsDrawnFrom.failsOnly_evaluatePolicyTo (h : g.IsDrawnFrom cfg p) {start : String}
    {fuel : Nat} {stack : List String} {d : Document} (hd : d ∈ p.documents)
    (hstack : g.IsStackFrom start stack d.policy)
    (hfuel : p.documents.length < fuel + stack.length) :
    FailsOnly (g.IsStoppedBy (p.Overflows inputs) start)
      (g.evaluatePolicyTo inputs fuel (stack.map .str)
        (Plan.policyNode cfg d (p.rootsOf d.policy))) := by
  induction fuel generalizing stack d with
  | zero =>
      have := hstack.length_le h
      omega
  | succ fuel ih =>
      have hreach := hstack.reachable d.policy (by simp)
      rw [evaluatePolicyTo_succ, Plan.policyNode_policy, Json.among_strs]
      by_cases hmem : d.policy ∈ stack
      · obtain ⟨cycle, clauses, hfault, hcircle⟩ := h.exists_circularFault hstack hmem
        rw [if_pos (by simpa using hmem), hfault]
        exact .error (.circle hcircle)
      rw [if_neg (by simpa using hmem), h.requiredPolicies_policy hd]
      refine .bind (fun f hf => ?_) fun _ _ => .bind ?_ fun own hown => ?_
      · rcases h.precheck_cases hd with ⟨hok, -⟩ | ⟨_, -, _, -, -, _, _, _, -, -, -, herror⟩
        · cases hok.symm.trans hf
        · obtain rfl := Except.error.inj (herror.symm.trans hf)
          exact .contradiction hreach herror
      · refine (h.failsOnly_evaluateRoots hd).imp ?_
        rintro f ⟨rfl, hover⟩
        exact .overflow hreach hover
      rw [ok_bind]
      refine .bind (.mapM fun name hname => ?_) fun required hrequired => ?_
      · obtain ⟨t, hfirst, rfl⟩ := List.mem_map.mp hname
        obtain ⟨ht, -⟩ := Plan.mem_firstTexts.mp hfirst
        rcases evaluateRequired_cases h inputs fuel stack hd ht with
          ⟨e, he, rfl, hrest⟩ | ⟨-, x, hx, -⟩
        · rw [hrest]
          refine ih he (h.push_required hd hstack hmem he ht) ?_
          rw [List.length_append, List.length_singleton]
          omega
        · rw [hx]
          exact .ok x
      · have hrest : ∀ x ∈ required, x.outcome.IsSettled := by
          intro x hx
          obtain ⟨name, hname, hx⟩ := exists_of_mem_mapM hrequired hx
          obtain ⟨t, hfirst, rfl⟩ := List.mem_map.mp hname
          obtain ⟨ht, -⟩ := Plan.mem_firstTexts.mp hfirst
          rcases evaluateRequired_cases h inputs fuel stack hd ht with
            ⟨e, he, rfl, hrest⟩ | ⟨-, y, hy, houtcome⟩
          · exact (h.spec_evaluatePolicyTo he (hrest.symm.trans hx)).1
          · obtain rfl := Except.ok.inj (hy.symm.trans hx)
            exact houtcome ▸ isSettled_unknownPolicy t
        obtain ⟨e, he, -⟩ := exists_concludePolicy h hd
          (List.forall_mem_append.mpr ⟨(h.spec_evaluateRoots hd hown).1, hrest⟩)
        rw [he]
        exact .ok e

end Policies

end PolicyGraph

/-- Whether a fault is one of those that an evaluation announces: a malformed query, an unknown
policy, a contradiction, or a circle of requirements. -/
def Fault.IsAnnounced : Fault → Prop
  | .malformedQuery _ => True
  | .unknownPolicy _ => True
  | .contradiction _ _ _ _ => True
  | .circularRequirement _ _ => True
  | _ => False

/-- Whether a comparison of a policy overflows, among the rules that a rule set assigns to it. -/
def RuleSet.Overflows (s : RuleSet) (inputs : Inputs) (policy : String) : Prop :=
  policy ∈ s.policies ∧ ∃ r ∈ s.rules.filter (s.assigns policy), r.Overflows inputs

theorem Plan.overflows_eq {p : Plan} {s : RuleSet} (hs : s.IsAccepted) (hplan : s.plan = .ok p)
    (inputs : Inputs) : p.Overflows inputs = s.Overflows inputs := by
  funext policy
  simp only [Plan.Overflows, RuleSet.Overflows, Plan.rootsOf_eq hs hplan, ← Plan.policies_eq hplan,
    List.mem_map, eq_iff_iff]
  constructor
  · rintro ⟨d, hd, rfl, hover⟩
    exact ⟨⟨d, hd, rfl⟩, hover⟩
  · rintro ⟨⟨d, hd, rfl⟩, hover⟩
    exact ⟨d, hd, rfl, hover⟩

/-- A value of another domain is a mismatch. -/
theorem Constraint.satisfiedBy_of_not_admits {c : Constraint} (hc : c.IsOrdinary) {given : Json}
    (hno : c.domain.admits given = false) : ∃ m, c.satisfiedBy given = .mismatch m := by
  have hexact : c.ReadsExactly given := by
    rintro x hx
    have hnumeric : c.domain = .numeric := by rw [domain, hx]; rfl
    rw [hnumeric] at hno
    refine ⟨?_, ?_⟩
    · rintro n rfl
      cases hno
    · rintro y rfl
      cases hno
  rcases satisfiedBy_of_readsExactly hc hexact with ⟨hyes, -⟩ | ⟨-, hm⟩
  · cases hno.symm.trans hyes
  · exact hm

namespace PolicyGraph

variable {cfg : Settings} {g : PolicyGraph} {p : Plan} {s : RuleSet} {inputs : Inputs}
  {policy : String}

section Queries

theorem IsStoppedBy.announced_or_overflows {overflows : String → Prop} {f : Fault}
    (h : g.IsStoppedBy overflows policy f) : f.IsAnnounced ∨
      f = .outOfRange ∧ ∃ t, Relation.ReflTransGen g.Requires policy t ∧ overflows t := by
  cases h with
  | contradiction => exact .inl trivial
  | circle => exact .inl trivial
  | overflow reach meets => exact .inr ⟨rfl, _, reach, meets⟩

/-- How the evaluation of a declared policy ends. -/
def EndsAt (g : PolicyGraph) (overflows : String → Prop) (policy : String)
    (x : Except Fault Verdict) : Prop :=
  (∃ v, x = .ok v) ∧ (∀ t, Relation.ReflTransGen g.Requires policy t → ¬ overflows t) ∨
    ∃ f, x = .error f ∧ g.IsStoppedBy overflows policy f

/-- A policy gets a verdict, or it is unknown, or a policy within its reach is at fault. -/
theorem IsDrawnFrom.verdict_cases (h : g.IsDrawnFrom cfg p) (settings : Settings) :
    ¬ g.IsInternal policy ∧
        g.verdict settings inputs (.str policy) = .error (.unknownPolicy (.str policy)) ∨
      g.IsInternal policy ∧
        g.EndsAt (p.Overflows inputs) policy (g.verdict settings inputs (.str policy)) := by
  cases hn : g.declaredPolicy (.str policy) with
  | error f =>
      left
      have hfault : f = .unknownPolicy (.str policy) := by
        unfold declaredPolicy at hn
        split at hn
        · exact (Except.error.inj hn).symm
        · split at hn
          · exact (Except.error.inj hn).symm
          · cases hn
      refine ⟨fun hpolicy => ?_, by rw [verdict, hn, hfault]; rfl⟩
      obtain ⟨d, hd, rfl⟩ := List.mem_map.mp (h.isInternal_iff.mp hpolicy)
      rw [declaredPolicy, policyNode?, Node.policyId_str, h.node?_policy hd] at hn
      simp at hn
  | ok n =>
      right
      obtain ⟨d, hd, rfl, rfl⟩ := h.exists_document hn
      have hpolicy := h.isInternal_iff.mpr (List.mem_map_of_mem hd)
      refine ⟨hpolicy, ?_⟩
      have hfuel : p.documents.length < g.nodes.length + 1 + ([] : List String).length :=
        Nat.lt_succ_of_le h.length_documents_le
      have hfails : FailsOnly (g.IsStoppedBy (p.Overflows inputs) d.policy) _ :=
        h.failsOnly_evaluatePolicyTo hd (isStackFrom_nil hpolicy) hfuel
      rw [verdict, hn, ok_bind, evaluatePolicy]
      cases he : g.evaluatePolicyTo inputs (g.nodes.length + 1) []
        (Plan.policyNode cfg d (p.rootsOf d.policy)) with
      | error f => exact .inr ⟨f, rfl, hfails f he⟩
      | ok e =>
          have hstack : g.evaluatePolicyTo inputs _ (([] : List String).map .str) _ = .ok e := he
          exact .inl ⟨⟨_, rfl⟩, (h.spec_evaluatePolicyTo hd hstack).2⟩

/-- How the evaluation of a query ends. -/
theorem ask_cases (hs : s.validate cfg = .ok s) (hg : (s.build cfg).outcome = .ok g)
    (settings : Settings) (query : Json) :
    (∃ fs, Query.read query = .flawed fs ∧
        (g.ask settings query).outcome = .error (.malformedQuery fs)) ∨
      ∃ q, Query.read query = .ok q ∧
        (¬ g.IsInternal q.policy ∧
            (g.ask settings query).outcome = .error (.unknownPolicy (.str q.policy)) ∨
          g.IsInternal q.policy ∧
            g.EndsAt (s.Overflows q.inputs) q.policy (g.ask settings query).outcome) := by
  obtain ⟨p, hp, h⟩ := isDrawnFrom_of_build hs hg
  rw [ask]
  cases hq : Query.read query with
  | flawed fs => exact .inl ⟨fs, rfl, rfl⟩
  | ok q =>
      refine .inr ⟨q, rfl, ?_⟩
      rw [answerChecked, answer, run_outcome, ← Plan.overflows_eq
        (RuleSet.isAccepted_of_validate hs).1 (RuleSet.checkedPlan_spec hp).1]
      exact h.verdict_cases settings

/-- The evaluation of a query only fails with an announced fault or at an overflow within reach. -/
theorem announced_or_overflows_of_ask (hs : s.validate cfg = .ok s)
    (hg : (s.build cfg).outcome = .ok g) {settings : Settings} {query : Json} {f : Fault}
    (hf : (g.ask settings query).outcome = .error f) : f.IsAnnounced ∨
      f = .outOfRange ∧ ∃ q, Query.read query = .ok q ∧
        ∃ t, Relation.ReflTransGen g.Requires q.policy t ∧ s.Overflows q.inputs t := by
  rcases ask_cases hs hg settings query with
    ⟨fs, -, hfs⟩ | ⟨q, hq, ⟨-, hunknown⟩ | ⟨-, ⟨⟨v, hv⟩, -⟩ | ⟨f', hf', hstop⟩⟩⟩
  · obtain rfl := Except.error.inj (hf.symm.trans hfs)
    exact .inl trivial
  · obtain rfl := Except.error.inj (hf.symm.trans hunknown)
    exact .inl trivial
  · cases hf.symm.trans hv
  · obtain rfl := Except.error.inj (hf.symm.trans hf')
    exact hstop.announced_or_overflows.imp_right fun ⟨hout, hover⟩ => ⟨hout, q, hq, hover⟩

/-- Where nothing within reach is contradictory or circular, a comparison within reach that
overflows ends the evaluation. -/
theorem ask_of_overflows (hs : s.validate cfg = .ok s) (hg : (s.build cfg).outcome = .ok g)
    (settings : Settings) {query : Json} {q : Query} (hq : Query.read query = .ok q)
    (hpolicy : g.IsInternal q.policy)
    (hclear : ∀ t, Relation.ReflTransGen g.Requires q.policy t →
      g.precheck (.str t) = .ok () ∧ ¬ g.IsCircular t)
    (hover : ∃ t, Relation.ReflTransGen g.Requires q.policy t ∧ s.Overflows q.inputs t) :
    (g.ask settings query).outcome = .error .outOfRange := by
  obtain ⟨t, ht, hmeets⟩ := hover
  rcases ask_cases hs hg settings query with ⟨fs, hfs, -⟩ | ⟨q', hq', hends⟩
  · cases hq.symm.trans hfs
  obtain rfl : q = q' := by simpa [hq] using hq'
  rcases hends with ⟨hundeclared, -⟩ | ⟨-, ⟨-, hno⟩ | ⟨f, hf, hstop⟩⟩
  · exact absurd hpolicy hundeclared
  · exact absurd hmeets (hno t ht)
  · cases hstop with
    | contradiction reach check => cases check.symm.trans (hclear _ reach).1
    | circle hcircle =>
        obtain ⟨u, hu, hcircular⟩ := hcircle.exists_isCircular
        exact absurd hcircular (hclear u hu).2
    | overflow => exact hf

/-- A value of another domain makes a comparison false. -/
theorem ruleHasValue_of_not_admits (hs : s.validate cfg = .ok s)
    (hg : (s.build cfg).outcome = .ok g) {r : Rule} (hr : r ∈ Rule.walkAll s.rules) {v : Operand}
    (hv : r.head.value = some v) {given : Json} (hgiven : inputs.lookup r.head.subject = some given)
    (hno : v.kind.domain.admits given = false) : g.RuleHasValue inputs r.id (some false) := by
  have hsound := (RuleSet.isAccepted_of_validate hs).1.sound r hr
  have hl : r.head.operator.isLogical = false := by
    by_contra hl
    simp [(hsound.logical (by simpa using hl)).1] at hv
  obtain ⟨m, hm⟩ := Constraint.satisfiedBy_of_not_admits (hsound.isOrdinary hl hv) hno
  obtain ⟨o, ho, hvalue⟩ :=
    hsound.exists_meaning_of_given hv hgiven (b := false) (.inr ⟨rfl, m, hm⟩)
  obtain ⟨h, cs⟩ := r
  exact hvalue ▸ ruleHasValue_of_meaning hs hg hr ((Rule.meaning_of_comparison hl cs).trans ho)

/-- The evaluation of a query ends with a verdict or an announced fault, with one exception: an
integer out of the range of floats, which a comparison within reach of the policy is to compare
with a number.  Where nothing within reach is contradictory or circular, such an integer always
ends the evaluation.  A value of another domain makes a comparison false. -/
theorem ask_ends (hs : s.validate cfg = .ok s) (hg : (s.build cfg).outcome = .ok g)
    (settings : Settings) (query : Json) :
    (∀ f, (g.ask settings query).outcome = .error f → f.IsAnnounced ∨ f = .outOfRange) ∧
    ((g.ask settings query).outcome = .error .outOfRange → ∃ q, Query.read query = .ok q ∧
      ∃ t, Relation.ReflTransGen g.Requires q.policy t ∧ s.Overflows q.inputs t) ∧
    (∀ q, Query.read query = .ok q → g.IsInternal q.policy →
      (∀ t, Relation.ReflTransGen g.Requires q.policy t →
        g.precheck (.str t) = .ok () ∧ ¬ g.IsCircular t) →
      (∃ t, Relation.ReflTransGen g.Requires q.policy t ∧ s.Overflows q.inputs t) →
      (g.ask settings query).outcome = .error .outOfRange) ∧
    ∀ inputs, ∀ r ∈ Rule.walkAll s.rules, ∀ v given, r.head.value = some v →
      inputs.lookup r.head.subject = some given → v.kind.domain.admits given = false →
      g.RuleHasValue inputs r.id (some false) := by
  refine ⟨fun f hf => ?_, fun hf => ?_, fun q hq hpolicy hclear hover => ?_,
    fun inputs r hr v given hv hgiven hno => ?_⟩
  · exact (announced_or_overflows_of_ask hs hg hf).imp_right And.left
  · exact ((announced_or_overflows_of_ask hs hg hf).resolve_left id).2
  · exact ask_of_overflows hs hg settings hq hpolicy hclear hover
  · exact ruleHasValue_of_not_admits hs hg hr hv hgiven hno

end Queries

section Ages

/-- A query for a policy with an age of four hundred and one digits. -/
def hugeAge : Json :=
  .obj [("policy_id", .str "p"), ("user_inputs", .obj [("age", .int (10 ^ 400))])]

/-- To be of age contradicts nothing and requires nothing. -/
theorem IsDrawnFrom.isClear_ofAge (h : g.IsDrawnFrom .standard ofAgePlan) {t : String}
    (ht : Relation.ReflTransGen g.Requires "p" t) :
    g.precheck (.str t) = .ok () ∧ ¬ g.IsCircular t := by
  have hnone : ∀ a b, ¬ g.Requires a b := by
    intro a b hab
    obtain ⟨d, hd, -, hb⟩ := h.requires_iff.mp hab
    have hall : ∀ d ∈ ofAgePlan.documents, d.prerequisites = [] := by decide +kernel
    rw [hall d hd] at hb
    cases hb
  obtain rfl : t = "p" := by
    rcases Relation.ReflTransGen.cases_head ht with rfl | ⟨b, hb, -⟩
    · rfl
    · exact absurd hb (hnone _ _)
  refine ⟨?_, fun hcircular => ?_⟩
  · exact h.precheck_of_jointly (d := { policy := "p", clauses := [{ id := "c" }] })
      List.mem_cons_self (by decide +kernel)
  · obtain ⟨b, ⟨-, -, hb⟩, -⟩ := Relation.TransGen.head'_iff.mp hcircular
    exact hnone _ _ hb

theorem overflows_hugeAge : ofAge.Overflows [("age", .int (10 ^ 400))] "p" := by
  refine ⟨by decide +kernel, .node (ageComparison "b" .gte) [], ?_, ageComparison "b" .gte, ?_,
    .finite 18, 10 ^ 400, rfl, by decide, rfl, by decide +kernel⟩
  · exact List.mem_cons_of_mem _ List.mem_cons_self
  · exact List.mem_cons_self

/-- The age of too many digits ends the evaluation, and next to it a text makes a comparison
false. -/
theorem ask_ends_hugeAge : ∃ g : PolicyGraph, (ofAge.build .standard).outcome = .ok g ∧
    (g.ask .standard hugeAge).outcome = .error .outOfRange ∧
    g.RuleHasValue [("age", .str "x")] "b" (some false) := by
  obtain ⟨g, hs, hg, h⟩ := exists_ofAge
  obtain ⟨-, -, hends, hfalse⟩ := ask_ends hs hg .standard hugeAge
  refine ⟨g, hg, ?_, ?_⟩
  · exact hends ⟨"p", [("age", .int (10 ^ 400))]⟩ rfl (h.isInternal_iff.mpr List.mem_cons_self)
      (fun _ ht => h.isClear_ofAge ht) ⟨"p", .refl, overflows_hugeAge⟩
  · exact hfalse [("age", .str "x")] (.node (ageComparison "b" .gte) [])
      (by simp [ofAge, Rule.walkAll, Rule.walk]) (.number (.finite 18)) (.str "x") rfl rfl rfl

/-- The evaluation of a query may end with a fault that is none of the announced ones. -/
theorem not_forall_ask_ends : ¬ ∀ (cfg : Settings) (s : RuleSet) (g : PolicyGraph)
    (settings : Settings) (fs : List (String × Json)),
      s.validate cfg = .ok s → (s.build cfg).outcome = .ok g →
      (∃ v, (g.ask settings (.obj fs)).outcome = .ok v) ∨
        ∃ f, (g.ask settings (.obj fs)).outcome = .error f ∧ f.IsAnnounced := by
  intro hall
  obtain ⟨g, hs, hg, h⟩ := exists_ofAge
  have hout : (g.ask .standard hugeAge).outcome = .error .outOfRange :=
    ask_of_overflows hs hg .standard (q := ⟨"p", [("age", .int (10 ^ 400))]⟩) rfl
      (h.isInternal_iff.mpr List.mem_cons_self) (fun _ ht => h.isClear_ofAge ht)
      ⟨"p", .refl, overflows_hugeAge⟩
  rcases hall .standard ofAge g .standard _ hs hg with ⟨v, hv⟩ | ⟨f, hf, hannounced⟩
  · cases hout.symm.trans hv
  · obtain rfl := Except.error.inj (hout.symm.trans hf)
    exact hannounced

end Ages

end PolicyGraph

end Eligibility
