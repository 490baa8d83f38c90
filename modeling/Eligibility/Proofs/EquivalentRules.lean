import Eligibility.Proofs.Clashes
import Eligibility.Proofs.MoreInputs
import Eligibility.Proofs.Outlines
/-!
# Equivalent rules mean the same

**Numbers.**  A zero with a minus sign is compared like one without, so that neither whether a value
meets a constraint nor whether two constraints can hold together depends on the sign.

**Analysis.**  The scenes of a tree are drawn from its operators, comparisons and the order of its
rules.  The scenes of the outline of a tree are the outlines of the scenes of the tree.

**Evaluation.**  Rules with one outline have the same truth value and wait for the same inputs,
whatever their names, clauses and confidences are.

**Results.**
* `jointly_plain`, `satisfiedBy_plain`: constraints without minus signs of zeros.
* `scenes_outline`: the scenes of outlines.
* `agrees_of_outline`: the meanings of rules with one outline.
* `evaluate_equivalent`: policies of one rule each, where the rules are equivalent.
-/

namespace Eligibility

namespace Number

theorem lt_plain_left (x y : Number) : x.plain.lt y = x.lt y := by
  cases x <;> cases y <;> rfl

theorem lt_plain_right (x y : Number) : x.lt y.plain = x.lt y := by
  cases x <;> cases y <;> rfl

theorem same_plain_left (x y : Number) : x.plain.same y = x.same y := by
  cases x <;> cases y <;> rfl

theorem same_plain_right (x y : Number) : x.same y.plain = x.same y := by
  cases x <;> cases y <;> rfl

theorem sameInt_plain (x : Number) (n : Int) : x.plain.sameInt n = x.sameInt n := by
  cases x <;> rfl

end Number

namespace Interval
open Number (lt_plain_left lt_plain_right same_plain_left same_plain_right)

/-- An interval with zeros without a minus sign for its ends. -/
def plain (i : Interval) : Interval := { i with low := i.low.plain, high := i.high.plain }

theorem isPoint_plain (i : Interval) : i.plain.isPoint = i.isPoint := by
  simp only [isPoint, plain, same_plain_left, same_plain_right]

theorem isEmpty_plain (i : Interval) : i.plain.isEmpty = i.isEmpty := by
  simp only [isEmpty, plain, lt_plain_left, lt_plain_right, same_plain_left, same_plain_right]

theorem intersect_plain (i j : Interval) :
    i.plain.intersect j.plain = (i.intersect j).plain := by
  simp only [intersect, plain, lt_plain_left, lt_plain_right]
  split_ifs <;> rfl

theorem overlaps_plain (i j : Interval) : i.plain.overlaps j.plain = i.overlaps j := by
  rw [overlaps, overlaps, intersect_plain, isEmpty_plain]

theorem containsPoint_plain (i : Interval) (x : Number) :
    i.plain.containsPoint x = i.containsPoint x := by
  simp only [containsPoint, contains, plain, lt_plain_left, lt_plain_right, same_plain_left]

end Interval

theorem Operand.kind_plain (v : Operand) : v.plain.kind = v.kind := by
  cases v <;> rfl

namespace Constraint

/-- A constraint with a zero without a minus sign. -/
def plain (c : Constraint) : Constraint := { c with value := c.value.plain }

theorem intervalOf_plain (o : Operator) (x : Number) :
    intervalOf o x.plain = (intervalOf o x).map Interval.plain := by
  cases o <;> rfl

theorem numbersJointly_plain (o p : Operator) (x y : Number) :
    numbersJointly o x.plain p y.plain = numbersJointly o x p y := by
  unfold numbersJointly
  rw [intervalOf_plain, intervalOf_plain]
  have hlow (i : Interval) (z : Number) : i.plain.low.same z.plain = i.low.same z := by
    rw [Interval.plain, Number.same_plain_left, Number.same_plain_right]
  cases intervalOf o x <;> cases intervalOf p y <;>
    simp [hlow, Interval.isPoint_plain, Interval.overlaps_plain]

theorem textRange?_plain (c : Constraint) : c.plain.textRange? = c.textRange? := by
  obtain ⟨subject, o, v⟩ := c
  cases v <;> rfl

/-- Whether two constraints can hold together does not depend on the signs of zeros. -/
theorem jointly_plain (a b : Constraint) : a.plain.jointly b.plain = a.jointly b := by
  have hcomparable : comparable a.plain b.plain = comparable a b := by
    simp only [comparable, domain, plain, Operand.kind_plain]
  unfold jointly
  rw [hcomparable, textRange?_plain, textRange?_plain]
  obtain ⟨subject, o, v⟩ := a
  obtain ⟨subject', p, w⟩ := b
  cases v <;> cases w <;> simp [plain, Operand.plain, numbersJointly_plain]

/-- Whether a value meets a constraint does not depend on the sign of a zero. -/
theorem satisfiedBy_plain (c : Constraint) (given : Json) :
    c.plain.satisfiedBy given = c.satisfiedBy given := by
  obtain ⟨subject, o, v⟩ := c
  cases v with
  | number x =>
      have hnumber : ∀ y, checkNumber o x.plain y = checkNumber o x y := fun y => by
        unfold checkNumber
        rw [intervalOf_plain, Number.same_plain_right]
        cases intervalOf o x <;> simp [Interval.containsPoint_plain]
      have hint : ∀ n, checkInt o x.plain n = checkInt o x n := fun n => by
        unfold checkInt
        rw [intervalOf_plain, Number.sameInt_plain]
        cases intervalOf o x <;> simp [Interval.containsPoint_plain]
      cases given <;> simp [satisfiedBy, plain, Operand.plain, checkNumeric, hnumber, hint]
  | _ => rfl

/-- Constraints that are the same but for the signs of zeros are met by the same values. -/
theorem satisfiedBy_eq_of_plain {c d : Constraint} (h : c.plain = d.plain) (given : Json) :
    c.satisfiedBy given = d.satisfiedBy given := by
  rw [← satisfiedBy_plain, h, satisfiedBy_plain]

end Constraint

namespace Head

@[simp] theorem operator_outline (h : Head) : h.outline.operator = h.operator := by
  unfold outline
  split_ifs <;> rfl

@[simp] theorem id_outline (h : Head) : h.outline.id = "" := by
  unfold outline
  split_ifs <;> rfl

/-- The outline of the head of a comparison. -/
theorem outline_of_comparison {h : Head} (hl : h.operator.isLogical = false) :
    h.outline =
      { operator := h.operator, subject := h.subject, value := h.value.map Operand.plain } := by
  rw [outline, if_neg (by simp [hl])]

end Head

section Scenes

/-- A commitment to the outline of a comparison. -/
def Commitment.outline (c : Commitment) : Commitment := { c with head := c.head.outline }

/-- A scene without the names of its rules and what else outlines leave out. -/
def Scene.outline (s : Scene) : Scene :=
  ⟨s.leaf.outline, s.context.map Commitment.outline, s.trail.map fun _ => ""⟩

/-- A commitment to the outline of a comparison asks for the same, but for the signs of zeros. -/
theorem Commitment.constraint?_outline {c : Commitment} (hl : c.head.operator.isLogical = false) :
    c.outline.constraint? = c.constraint?.map Constraint.plain := by
  obtain ⟨h, positive⟩ := c
  unfold constraint? Commitment.outline
  rw [Head.outline_of_comparison hl]
  cases h.value with
  | none => rfl
  | some v => cases positive <;> cases h.operator.negated? <;> rfl

theorem Commitment.IsPlaced.isLogical {p : Plan} {policy : String} {c : Commitment}
    (h : c.IsPlaced p policy) : c.head.operator.isLogical = false := by
  obtain ⟨r, -, hr, hl⟩ := h
  exact hr ▸ hl

theorem Commitment.clashes_outline {a b : Commitment} (ha : a.head.operator.isLogical = false)
    (hb : b.head.operator.isLogical = false) :
    a.outline.Clashes b.outline ↔ a.Clashes b := by
  simp [Clashes, constraint?_outline ha, constraint?_outline hb, Constraint.jointly_plain]

namespace Rule
open PolicyGraph (isConjunctive)

mutual

theorem forced_outline (positive : Bool) : ∀ r : Rule,
    (outline r).forced positive = (r.forced positive).map Commitment.outline
  | node h cs => by
      rw [outline, forced, forced, Head.operator_outline]
      split_ifs
      · exact forcedAll_outlineAll _ cs
      · rfl
      · rfl

theorem forcedAll_outlineAll (positive : Bool) : ∀ rs : List Rule,
    forcedAll positive (outlineAll rs) = (forcedAll positive rs).map Commitment.outline
  | [] => rfl
  | r :: rs => by
      rw [outlineAll, forcedAll, forcedAll, List.map_append, forced_outline positive r,
        forcedAll_outlineAll positive rs]

end

mutual

/-- The scenes of the outline of a tree are the outlines of its scenes. -/
theorem scenes_outline (trail : List String) (context : List Commitment) (positive : Bool) :
    ∀ r : Rule,
      (outline r).scenes (trail.map fun _ => "") (context.map Commitment.outline) positive =
        (r.scenes trail context positive).map Scene.outline
  | node h cs => by
      have htrail : ((trail ++ [h.id]).map fun _ => "") = (trail.map fun _ => "") ++ [""] := by simp
      rw [outline, scenes, scenes, Head.operator_outline, Head.id_outline, ← htrail]
      split_ifs
      · exact scenesBeside_outlineAll _ context [] _ cs
      · exact scenesApart_outlineAll _ context _ cs
      · rfl

theorem scenesBeside_outlineAll (trail : List String) (context before : List Commitment)
    (positive : Bool) : ∀ rs : List Rule,
      scenesBeside (trail.map fun _ => "") (context.map Commitment.outline)
          (before.map Commitment.outline) positive (outlineAll rs) =
        (scenesBeside trail context before positive rs).map Scene.outline
  | [] => rfl
  | r :: rs => by
      have hfirst := scenes_outline trail (context ++ (before ++ forcedAll positive rs)) positive r
      have hrest := scenesBeside_outlineAll trail context (before ++ r.forced positive) positive rs
      rw [outlineAll, scenesBeside, scenesBeside, List.map_append, ← hfirst, ← hrest,
        forced_outline, forcedAll_outlineAll]
      simp only [List.map_append]

theorem scenesApart_outlineAll (trail : List String) (context : List Commitment)
    (positive : Bool) : ∀ rs : List Rule,
      scenesApart (trail.map fun _ => "") (context.map Commitment.outline) positive
          (outlineAll rs) =
        (scenesApart trail context positive rs).map Scene.outline
  | [] => rfl
  | r :: rs => by
      rw [outlineAll, scenesApart, scenesApart, List.map_append, scenes_outline,
        scenesApart_outlineAll]

end

end Rule

end Scenes

section Meanings

namespace Outcome

/-- Whether two outcomes have one truth value and wait for the same inputs. -/
structure Agrees (o o' : Outcome) : Prop where
  value : o.value = o'.value
  pending : o.pending = o'.pending

variable {os os' : List Outcome}

theorem map_value_of_agrees (h : List.Forall₂ Agrees os os') : os.map value = os'.map value := by
  induction h with
  | nil => rfl
  | cons ho _ ih => rw [List.map_cons, List.map_cons, ho.value, ih]

theorem awaited_of_agrees (h : List.Forall₂ Agrees os os') : awaited os = awaited os' := by
  refine congrArg TextSet.ofList ?_
  induction h with
  | nil => rfl
  | cons ho _ ih =>
      rw [List.filter_cons, List.filter_cons, ho.value]
      split
      · rw [List.flatMap_cons, List.flatMap_cons, ho.pending, ih]
      · exact ih

theorem agrees_conjunction (h : List.Forall₂ Agrees os os') :
    (conjunction os).Agrees (conjunction os') := by
  have hvalues := map_value_of_agrees h
  exact ⟨by simp only [conjunction, hvalues],
    by simp only [conjunction, hvalues, awaited_of_agrees h]⟩

theorem agrees_disjunction (h : List.Forall₂ Agrees os os') :
    (disjunction os).Agrees (disjunction os') := by
  have hvalues := map_value_of_agrees h
  exact ⟨by simp only [disjunction, hvalues],
    by simp only [disjunction, hvalues, awaited_of_agrees h]⟩

theorem Agrees.negation {o o' : Outcome} (h : o.Agrees o') : o.negation.Agrees o'.negation :=
  ⟨congrArg Kleene.not h.value, h.pending⟩

end Outcome

theorem Operator.agrees_of_meaning {op : Operator} {os os' : List Outcome}
    (h : List.Forall₂ Outcome.Agrees os os') {o o' : Outcome} (ho : op.meaning os = some o)
    (ho' : op.meaning os' = some o') : o.Agrees o' := by
  unfold meaning at ho
  split at ho
  · cases ho
    cases ho'
    exact Outcome.agrees_conjunction h
  · cases ho
    cases ho'
    exact Outcome.agrees_disjunction h
  · cases ho
    obtain ⟨u, us, hu, hus, rfl⟩ := List.forall₂_cons_left_iff.mp h
    obtain rfl := List.forall₂_nil_left_iff.mp hus
    cases ho'
    exact hu.negation
  · cases ho

variable {inputs : List (String × Json)}

/-- Comparisons with one outline agree. -/
theorem Head.agrees_of_outline {h k : Head} (hl : h.operator.isLogical = false)
    (hsame : h.outline = k.outline) {o o' : Outcome} (ho : h.meaning inputs = some o)
    (ho' : k.meaning inputs = some o') : o.Agrees o' := by
  have hoperator : h.operator = k.operator := by
    simpa using congrArg Head.operator hsame
  rw [outline_of_comparison hl, outline_of_comparison (hoperator ▸ hl)] at hsame
  simp only [Head.mk.injEq, true_and, and_true] at hsame
  obtain ⟨hsubject, -, hvalue⟩ := hsame
  unfold meaning at ho ho'
  split at ho
  next v x hv hx =>
    split at ho'
    next w y hw hy =>
      have hplain : v.plain = w.plain := by simpa [hv, hw] using hvalue
      have hconstraint : (Constraint.mk h.subject h.operator v).plain =
          (Constraint.mk k.subject k.operator w).plain := by
        simp only [Constraint.plain, hsubject, hoperator, hplain]
      have hcheck := Constraint.satisfiedBy_eq_of_plain hconstraint
      rw [hsubject] at ho hcheck
      cases hgiven : inputs.lookup k.subject with
      | none =>
          rw [hgiven] at ho ho'
          cases ho
          cases ho'
          exact ⟨rfl, rfl⟩
      | some given =>
          rw [hgiven] at ho ho'
          simp only [hcheck given] at ho
          cases hresult : (Constraint.mk k.subject k.operator w).satisfiedBy given with
          | answer holds =>
              simp only [hresult, Option.some.injEq] at ho ho'
              exact ho ▸ ho' ▸ ⟨rfl, rfl⟩
          | mismatch m =>
              simp only [hresult, Option.some.injEq] at ho ho'
              exact ho ▸ ho' ▸ ⟨rfl, rfl⟩
          | outOfRange => simp [hresult] at ho
          | noInterval => simp [hresult] at ho
    · cases ho'
  · cases ho

namespace Rule

mutual

/-- Rules with one outline agree. -/
theorem agrees_of_outline : ∀ {r t : Rule}, outline r = outline t → ∀ {o o' : Outcome},
    r.meaning inputs = some o → t.meaning inputs = some o' → o.Agrees o'
  | node h cs, node k ds, hsame, o, o', ho, ho' => by
      rw [outline, outline] at hsame
      obtain ⟨hhead, hbelow⟩ := Rule.node.inj hsame
      have hoperator : h.operator = k.operator := by
        simpa using congrArg Head.operator hhead
      rw [meaning] at ho ho'
      rw [← hoperator] at ho'
      split_ifs at ho ho' with hl
      · obtain ⟨os, hos, ho⟩ := Option.bind_eq_some_iff.mp ho
        obtain ⟨os', hos', ho'⟩ := Option.bind_eq_some_iff.mp ho'
        exact Operator.agrees_of_meaning (agrees_of_outlineAll hbelow hos hos') ho ho'
      · exact Head.agrees_of_outline (by simpa using hl) hhead ho ho'

theorem agrees_of_outlineAll : ∀ {rs ts : List Rule}, outlineAll rs = outlineAll ts →
    ∀ {os os' : List Outcome}, meanings inputs rs = some os → meanings inputs ts = some os' →
      List.Forall₂ Outcome.Agrees os os'
  | [], [], _, os, os', hos, hos' => by
      cases hos
      cases hos'
      exact .nil
  | r :: rs, t :: ts, hsame, os, os', hos, hos' => by
      rw [outlineAll, outlineAll] at hsame
      obtain ⟨hfirst, hrest⟩ := List.cons.inj hsame
      obtain ⟨o, ho, hos⟩ := Option.bind_eq_some_iff.mp hos
      obtain ⟨us, hus, rfl⟩ := Option.map_eq_some_iff.mp hos
      obtain ⟨o', ho', hos'⟩ := Option.bind_eq_some_iff.mp hos'
      obtain ⟨us', hus', rfl⟩ := Option.map_eq_some_iff.mp hos'
      exact .cons (agrees_of_outline hfirst ho ho') (agrees_of_outlineAll hrest hus hus')
  | [], _ :: _, hsame, _, _, _, _ => by cases hsame
  | _ :: _, [], hsame, _, _, _, _ => by cases hsame

end

end Rule

variable {s : RuleSet} {a : Rule}

/-- A single rule without documents is a policy that means what the rule means. -/
theorem RuleSet.meaning_of_rule (hd : s.documents = []) (hr : s.rules = [a]) :
    s.meaning inputs a.id = (a.meaning inputs).map fun o => .conjunction [o] := by
  have hpolicies : s.policies = [a.id] := by simp [policies, hd, hr]
  have hrequirements : s.requirements a.id = [] := by simp [requirements, hd]
  have hown : s.rules.filter (s.assigns a.id) = [a] := by simp [hr, assigns, hd]
  rw [meaning, hpolicies, List.length_singleton, policyMeaning, hown, hrequirements, Rule.meanings,
    Rule.meanings]
  cases a.meaning inputs <;> rfl

end Meanings

namespace PolicyGraph

variable {cfg cfg' : Settings} {g k : PolicyGraph} {p q : Plan} {d e : Document}

section Checks

/-- A policy passes the check where one passes it that has the same scenes in outline. -/
theorem IsDrawnFrom.precheck_of_outline (h : g.IsDrawnFrom cfg p) (hd : d ∈ p.documents)
    (h' : k.IsDrawnFrom cfg' q) (he : e ∈ q.documents)
    (hsame : (p.scenesOf d.policy).map Scene.outline = (q.scenesOf e.policy).map Scene.outline)
    (hok : g.precheck (.str d.policy) = .ok ()) : k.precheck (.str e.policy) = .ok () := by
  rcases h'.precheck_cases he with ⟨hok', -⟩ | ⟨s', hs', c', hc', hclash, -⟩
  · exact hok'
  rcases h.precheck_cases hd with ⟨-, hall⟩ | ⟨_, _, _, _, _, _, _, _, _, _, _, herror⟩
  · obtain ⟨s, hs, houtline⟩ := List.mem_map.mp (hsame ▸ List.mem_map_of_mem hs')
    have hleaf : s.leaf.outline = s'.leaf.outline := congrArg Scene.leaf houtline
    have hcontext : s.context.map Commitment.outline = s'.context.map Commitment.outline :=
      congrArg Scene.context houtline
    obtain ⟨c, hc, hcc⟩ := List.mem_map.mp (hcontext ▸ List.mem_map_of_mem hc')
    obtain ⟨hplaced, hbeside⟩ := Plan.isPlaced_of_mem_scenesOf h.sound hd hs
    obtain ⟨hplaced', hbeside'⟩ := Plan.isPlaced_of_mem_scenesOf h'.sound he hs'
    rw [← Commitment.clashes_outline hplaced'.isLogical (hbeside' c' hc').1.isLogical, ← hleaf,
      ← hcc, Commitment.clashes_outline hplaced.isLogical (hbeside c hc).1.isLogical] at hclash
    exact absurd hclash (hall s hs c hc)
  · rw [hok] at herror
    cases herror

end Checks

section Values

variable {s t : RuleSet} {a b : Rule} {inputs : Inputs}

/-- Whether a policy is evaluated to a truth value, or to none. -/
def PolicyHasValue (g : PolicyGraph) (inputs : Inputs) (policy : String) (v : Option Bool) :
    Prop :=
  ∃ n e, g.declaredPolicy (.str policy) = .ok n ∧ g.evaluatePolicy inputs n = .ok e ∧
    e.outcome.value = v

/-- A policy with a verdict has the value of its meaning. -/
theorem policyHasValue_of_verdict (hs : s.validate cfg = .ok s)
    (hg : (s.build cfg).outcome = .ok g) {policy : String} {v : Verdict}
    (h : g.verdict cfg inputs (.str policy) = .ok v) :
    ∃ o, s.meaning inputs policy = some o ∧ g.PolicyHasValue inputs policy o.value ∧
      v.requirements = if o.value.isNone then some o.pending.members else none := by
  obtain ⟨p, hp, hdrawn⟩ := isDrawnFrom_of_build hs hg
  obtain ⟨n, hn, hrest⟩ := Attempt.bind_eq_ok.mp h
  obtain ⟨e, he, hconclude⟩ := Attempt.bind_eq_ok.mp hrest
  obtain ⟨d, hd, rfl, rfl⟩ := hdrawn.exists_document hn
  obtain ⟨hmeaning, -⟩ := policyMeaning_of_evaluatePolicyTo (RuleSet.isAccepted_of_validate hs).1
    (RuleSet.checkedPlan_spec hp).1 hdrawn inputs List.nodup_nil (List.nil_subset _) hd he
  cases hconclude
  exact ⟨e.outcome, hmeaning, ⟨_, e, hn, he, rfl⟩, rfl⟩

/-- The only rule of a rule set without documents is the only policy of its graph, and requires no
other one. -/
theorem exists_document_of_rule (hs : s.validate cfg = .ok s) (hg : (s.build cfg).outcome = .ok g)
    (hdocuments : s.documents = []) (hrules : s.rules = [a]) :
    ∃ p d, g.IsDrawnFrom cfg p ∧ p.documents = [d] ∧ d.policy = a.id ∧ d.prerequisites = [] ∧
      p.rootsOf a.id = [a] := by
  obtain ⟨p, hp, h⟩ := isDrawnFrom_of_build hs hg
  have hplan := (RuleSet.checkedPlan_spec hp).1
  have hmode := (RuleSet.plan_spec hplan).2
  rw [if_pos hdocuments, hrules] at hmode
  refine ⟨p, _, h, hmode.1, rfl, rfl, ?_⟩
  rw [Plan.rootsOf_eq (RuleSet.isAccepted_of_validate hs).1 hplan]
  simp [hrules, RuleSet.assigns, hdocuments]

/-- A policy of one rule that passes the check gets a verdict against inputs in range. -/
theorem exists_verdict_of_rule (hs : s.validate cfg = .ok s) (hg : (s.build cfg).outcome = .ok g)
    (hdocuments : s.documents = []) (hrules : s.rules = [a])
    (hok : g.precheck (.str a.id) = .ok ()) {given : Json} {es : Entries Json} {inputs : Inputs}
    (hes : Fault.mappingOrEmpty given = .ok es)
    (hq : Query.check (.str a.id) es = .ok ⟨a.id, inputs⟩) (hin : Rule.InRange inputs) :
    ∃ v, (g.evaluate cfg (.str a.id) given).outcome = .ok v := by
  obtain ⟨p, d, h, hdocument, hpolicy, hprerequisites, -⟩ :=
    exists_document_of_rule hs hg hdocuments hrules
  have hinternal : ∀ x, g.IsInternal x ↔ x = a.id := fun x => by
    simp [h.isInternal_iff, hdocument, hpolicy]
  rcases h.evaluate_cases (fun x hx => (hinternal x).mp hx ▸ hok) hes hq hin
    ((hinternal _).mpr rfl) with ⟨v, hv, -⟩ | ⟨cycle, clauses, -, hcircle⟩
  · exact ⟨v, hv⟩
  · obtain ⟨x, -, hcircular⟩ := hcircle.exists_isCircular
    obtain ⟨y, ⟨-, -, hxy⟩, -⟩ := Relation.TransGen.head'_iff.mp hcircular
    obtain ⟨e, he, -, hy⟩ := h.requires_iff.mp hxy
    obtain rfl : e = d := by simpa [hdocument] using he
    simp [hprerequisites] at hy

/-- A policy of one rule gets a verdict against inputs in range, if what is to hold beside a
comparison of the rule is on another variable. -/
theorem exists_verdict_of_separate (hs : s.validate cfg = .ok s)
    (hg : (s.build cfg).outcome = .ok g) (hdocuments : s.documents = []) (hrules : s.rules = [a])
    (hseparate : ∀ x ∈ a.scenes [] [] true, ∀ c ∈ x.context,
      x.leaf.head.subject ≠ c.head.subject)
    {given : Json} {es : Entries Json} {inputs : Inputs} (hes : Fault.mappingOrEmpty given = .ok es)
    (hq : Query.check (.str a.id) es = .ok ⟨a.id, inputs⟩) (hin : Rule.InRange inputs) :
    ∃ v, (g.evaluate cfg (.str a.id) given).outcome = .ok v := by
  obtain ⟨p, d, h, hdocument, hpolicy, -, hroots⟩ :=
    exists_document_of_rule hs hg hdocuments hrules
  have hd : d ∈ p.documents := by simp [hdocument]
  refine exists_verdict_of_rule hs hg hdocuments hrules ?_ hes hq hin
  rcases h.precheck_cases hd with ⟨hok, -⟩ | ⟨x, hx, c, hc, hclash, -⟩
  · rwa [hpolicy] at hok
  · rw [Plan.scenesOf, hpolicy, hroots] at hx
    simp only [Rule.scenesBeside, Rule.forcedAll, List.append_nil] at hx
    exact absurd hclash.subject_eq (hseparate x hx c hc)

/-- Policies of one rule each whose rules have one outline pass the check together. -/
theorem precheck_of_outline (hs : s.validate cfg = .ok s) (hg : (s.build cfg).outcome = .ok g)
    (ht : t.validate cfg' = .ok t) (hk : (t.build cfg').outcome = .ok k)
    (hsdocuments : s.documents = []) (hsrules : s.rules = [a]) (htdocuments : t.documents = [])
    (htrules : t.rules = [b]) (houtline : a.outline = b.outline) :
    g.precheck (.str a.id) = .ok () ↔ k.precheck (.str b.id) = .ok () := by
  obtain ⟨p, d, h, hd, hpolicy, -, hroots⟩ := exists_document_of_rule hs hg hsdocuments hsrules
  obtain ⟨q, e, h', he, hpolicy', -, hroots'⟩ := exists_document_of_rule ht hk htdocuments htrules
  have hd : d ∈ p.documents := hd ▸ List.mem_singleton_self d
  have he : e ∈ q.documents := he ▸ List.mem_singleton_self e
  have hall : Rule.outlineAll [a] = Rule.outlineAll [b] := by
    simp only [Rule.outlineAll, houtline]
  have hsame : (p.scenesOf d.policy).map Scene.outline =
      (q.scenesOf e.policy).map Scene.outline := by
    rw [Plan.scenesOf, Plan.scenesOf, hpolicy, hpolicy', hroots, hroots',
      ← Rule.scenesBeside_outlineAll, ← Rule.scenesBeside_outlineAll, hall]
  rw [← hpolicy, ← hpolicy']
  exact ⟨h.precheck_of_outline hd h' he hsame, h'.precheck_of_outline he h hd hsame.symm⟩

/-- Verdicts for policies of one rule each whose rules have one outline ask for the same inputs, and
the policies have one value. -/
theorem verdicts_of_outline (hs : s.validate cfg = .ok s) (hg : (s.build cfg).outcome = .ok g)
    (ht : t.validate cfg' = .ok t) (hk : (t.build cfg').outcome = .ok k)
    (hsdocuments : s.documents = []) (hsrules : s.rules = [a]) (htdocuments : t.documents = [])
    (htrules : t.rules = [b]) (houtline : a.outline = b.outline) {v w : Verdict}
    (hv : g.verdict cfg inputs (.str a.id) = .ok v)
    (hw : k.verdict cfg' inputs (.str b.id) = .ok w) :
    v.requirements = w.requirements ∧
      ∃ x, g.PolicyHasValue inputs a.id x ∧ k.PolicyHasValue inputs b.id x := by
  obtain ⟨o, ho, hvalue, hrequirements⟩ := policyHasValue_of_verdict hs hg hv
  obtain ⟨o', ho', hvalue', hrequirements'⟩ := policyHasValue_of_verdict ht hk hw
  rw [RuleSet.meaning_of_rule hsdocuments hsrules] at ho
  rw [RuleSet.meaning_of_rule htdocuments htrules] at ho'
  obtain ⟨u, hu, rfl⟩ := Option.map_eq_some_iff.mp ho
  obtain ⟨u', hu', rfl⟩ := Option.map_eq_some_iff.mp ho'
  have hagrees := Outcome.agrees_conjunction
    (.cons (Rule.agrees_of_outline houtline hu hu') .nil)
  exact ⟨by rw [hrequirements, hrequirements', hagrees.value, hagrees.pending],
    _, hvalue, hagrees.value ▸ hvalue'⟩

/-- Policies of one rule each whose rules are equivalent: they pass the check together, and
against all inputs for which both give a verdict they have one truth value and wait for the same
inputs. -/
theorem evaluate_equivalent (hs : s.validate cfg = .ok s) (hg : (s.build cfg).outcome = .ok g)
    (ht : t.validate cfg' = .ok t) (hk : (t.build cfg').outcome = .ok k)
    (hsdocuments : s.documents = []) (hsrules : s.rules = [a]) (htdocuments : t.documents = [])
    (htrules : t.rules = [b]) (hab : a.equivalent b = true) :
    (g.precheck (.str a.id) = .ok () ↔ k.precheck (.str b.id) = .ok ()) ∧
    ∀ given v w, (g.evaluate cfg (.str a.id) given).outcome = .ok v →
      (k.evaluate cfg' (.str b.id) given).outcome = .ok w →
        v.requirements = w.requirements ∧
        ∃ es inputs x, Fault.mappingOrEmpty given = .ok es ∧ Schema.inputEntries es = .ok inputs ∧
          g.PolicyHasValue inputs a.id x ∧ k.PolicyHasValue inputs b.id x := by
  have houtline := Rule.outline_of_equivalent hab
  refine ⟨precheck_of_outline hs hg ht hk hsdocuments hsrules htdocuments htrules houtline,
    fun given v w hv hw => ?_⟩
  obtain ⟨es, hes⟩ : ∃ es, Fault.mappingOrEmpty given = .ok es := by
    cases hes : Fault.mappingOrEmpty given with
    | ok es => exact ⟨es, rfl⟩
    | error f => simp [evaluate, hes] at hv
  obtain ⟨q, hq, hv⟩ := verdict_of_evaluate hes hv
  obtain ⟨q', hq', hw⟩ := verdict_of_evaluate hes hw
  obtain ⟨hpolicy, hread⟩ := Query.check_eq_ok hq
  obtain ⟨hpolicy', hread'⟩ := Query.check_eq_ok hq'
  rw [← Json.str.inj hpolicy] at hv
  rw [← Json.str.inj hpolicy', ← Schema.Checked.ok.inj (hread.symm.trans hread')] at hw
  obtain ⟨hrequirements, x, hx, hx'⟩ := verdicts_of_outline hs hg ht hk hsdocuments hsrules
    htdocuments htrules houtline hv hw
  exact ⟨hrequirements, es, q.inputs, x, hes, hread, hx, hx'⟩

end Values

section Accounts

/-- An account that is not overdrawn, compared with a zero with a minus sign. -/
def account : RuleSet where
  rules := [
    .node { id := "r", subject := "any", operator := .not, clause := "c",
            confidence := some Number.one } [
      .node { id := "s", subject := "balance", operator := .lt, value := some (.number .negZero),
              clause := "c", confidence := some (.finite (1 / 2)) } []]]

/-- An account that is not overdrawn, with other names, clauses and confidences. -/
def ledger : RuleSet where
  rules := [
    .node { id := "t", subject := "sum", operator := .not, clause := "d",
            confidence := some (.finite (1 / 4)), group := some "x" } [
      .node { id := "u", subject := "balance", operator := .lt, value := some (.number .zero),
              clause := "e", confidence := some Number.one } []]]

/-- The plan of a rule set without documents. -/
def planOf (s : RuleSet) : Plan := ⟨RuleSet.declare [] s.rules, s.rules.map fun r => (r.id, r)⟩

/-- Without a balance both accounts wait for it. -/
theorem evaluate_equivalent_account : ∃ (g k : PolicyGraph) (v w : Verdict),
    (account.build .standard).outcome = .ok g ∧ (ledger.build .standard).outcome = .ok k ∧
      (g.evaluate .standard (.str "r") (.obj [])).outcome = .ok v ∧
      (k.evaluate .standard (.str "t") (.obj [])).outcome = .ok w ∧
      v.requirements = some ["balance"] ∧ w.requirements = some ["balance"] := by
  obtain ⟨g, hs, hg, h⟩ : ∃ g, account.validate .standard = .ok account ∧
      (account.build .standard).outcome = .ok g ∧ g.IsDrawnFrom .standard (planOf account) :=
    exists_build (by decide +kernel) rfl (by decide +kernel)
  obtain ⟨k, ht, hk, -⟩ : ∃ k, ledger.validate .standard = .ok ledger ∧
      (ledger.build .standard).outcome = .ok k ∧ k.IsDrawnFrom .standard (planOf ledger) :=
    exists_build (by decide +kernel) rfl (by decide +kernel)
  obtain ⟨hcheck, hsame⟩ := evaluate_equivalent hs hg ht hk rfl rfl rfl rfl (by decide +kernel)
  have hok : g.precheck (.str "r") = .ok () := by
    have hd : { policy := "r", clauses := [{ id := "c" }] } ∈ (planOf account).documents :=
      List.mem_cons_self
    have hscenes : ∀ x ∈ (planOf account).scenesOf "r", x.context.isEmpty = true := by
      decide +kernel
    rcases h.precheck_cases hd with ⟨hok, -⟩ | ⟨x, hx, c, hc, -⟩
    · exact hok
    · rw [List.isEmpty_iff.mp (hscenes x hx)] at hc
      cases hc
  have hempty : Fault.mappingOrEmpty (.obj []) = .ok [] := rfl
  have hquery : Query.check (.str "r") [] = .ok ⟨"r", []⟩ := rfl
  have hquery' : Query.check (.str "t") [] = .ok ⟨"t", []⟩ := rfl
  obtain ⟨v, hv⟩ := exists_verdict_of_rule hs hg rfl rfl hok hempty hquery
    (by simp [Rule.InRange])
  obtain ⟨w, hw⟩ := exists_verdict_of_rule ht hk rfl rfl (hcheck.mp hok) hempty hquery'
    (by simp [Rule.InRange])
  obtain ⟨hrequirements, -⟩ := hsame _ v w hv hw
  have hwait : v.requirements = some ["balance"] := by
    obtain ⟨q, hq, hverdict⟩ := verdict_of_evaluate hempty hv
    obtain rfl : (⟨"r", []⟩ : Query) = q := Schema.Checked.ok.inj (hquery.symm.trans hq)
    obtain ⟨o, ho, -, hv⟩ := policyHasValue_of_verdict hs hg hverdict
    have hmeaning : (account.meaning [] "r").map (fun o => (o.value, o.pending.members)) =
        some (none, ["balance"]) := by decide +kernel
    rw [ho, Option.map_some, Option.some.injEq, Prod.mk.injEq] at hmeaning
    rw [hv, hmeaning.1, hmeaning.2]
    rfl
  exact ⟨g, k, v, w, hg, hk, hv, hw, hwait, hrequirements ▸ hwait⟩

end Accounts

end PolicyGraph

end Eligibility
