import Eligibility.Proofs.Confidences
import Eligibility.Proofs.MissingInputs
import Eligibility.Proofs.MoreInputs
import Eligibility.Proofs.PolicyEdges
import Eligibility.Proofs.Traces
import Eligibility.Proofs.VerdictConditions
/-!
# Evaluations of rules that match

**Outcomes.**  Outcomes match that have the same value, wait for the same inputs and have related
confidences.  Combinations of outcomes that match in some order match, where the relation of
confidences is respected.

**Traces.**  Evaluations of rules that match leave findings that match in some order and ask for
the same inputs.

**Results.**
* `Outcome.varies_conjunction`, `Outcome.varies_disjunction`: combinations of outcomes that match.
* `varies_evaluateRule`: evaluations of rules.
* `varies_evaluatePolicyTo`: evaluations of policies.
* `varies_of_verdict`: what verdicts on policies whose rules match come from.
-/

namespace Eligibility
open Schema
open Number (IsRespected)

/-- Outcomes that differ at most in their confidences, which are related. -/
structure Outcome.Varies (K : Number → Number → Prop) (o o' : Outcome) : Prop where
  value : o.value = o'.value
  pending : o.pending = o'.pending
  confidence : K o.confidence o'.confidence

/-- Findings that differ at most in their confidences, which are related. -/
structure Finding.Varies (K : Number → Number → Prop) (f f' : Finding) : Prop where
  eq : f' = { f with confidence := f'.confidence }
  confidence : K f.confidence f'.confidence

/-- Evaluations whose outcomes match, and whose findings do in some order. -/
structure Evaluated.Varies (K : Number → Number → Prop) (e e' : Evaluated) : Prop where
  outcome : e.outcome.Varies K e'.outcome
  findings : Matched (Finding.Varies K) e.findings e'.findings
  missing : e.missing = e'.missing

variable {K : Number → Number → Prop}

namespace Outcome

variable {os os' : List Outcome} {o o' : Outcome}

section Combinations

variable (hK : IsRespected K) (h : Matched (Varies K) os os')

include h

theorem map_value_perm : (os.map value).Perm (os'.map value) :=
  h.map_perm fun _ _ hx => hx.value

theorem awaited_eq : awaited os = awaited os' := by
  refine TextSet.ext_members fun x => ?_
  have hiff : x ∈ awaited os ↔ x ∈ awaited os' := by
    rw [mem_awaited, mem_awaited]
    constructor
    · rintro ⟨o, ho, hnone, hx⟩
      obtain ⟨o', ho', hoo⟩ := h.exists_right ho
      exact ⟨o', ho', hoo.value ▸ hnone, hoo.pending ▸ hx⟩
    · rintro ⟨o', ho', hnone, hx⟩
      obtain ⟨o, ho, hoo⟩ := h.exists_left ho'
      exact ⟨o, ho, hoo.value.trans hnone, hoo.pending ▸ hx⟩
  simpa [TextSet.mem_def] using hiff

include hK

theorem varies_conjunction : (conjunction os).Varies K (conjunction os') := by
  have hvalue : (os.map value).foldr Kleene.and (some true) =
      (os'.map value).foldr Kleene.and (some true) := by
    have hperm := map_value_perm h
    rw [← Kleene.conjoinValue_eq, ← Kleene.conjoinValue_eq, conjoinValue, conjoinValue,
      hperm.any_eq, hperm.any_eq]
  have hconfidence : K (Number.least (os.map confidence)) (Number.least (os'.map confidence)) := by
    have hmatched : Matched K (os.map confidence) (os'.map confidence) :=
      h.map fun _ _ hx => hx.confidence
    cases os with
    | nil =>
        obtain rfl : os' = [] := List.eq_nil_of_length_eq_zero h.length_eq.symm
        exact hK.one
    | cons o os => exact hK.least (by simp) hmatched
  exact ⟨hvalue, by rw [conjunction, conjunction, hvalue, awaited_eq h], hconfidence⟩

theorem varies_disjunction (hne : os ≠ []) : (disjunction os).Varies K (disjunction os') := by
  have hvalue : (os.map value).foldr Kleene.or (some false) =
      (os'.map value).foldr Kleene.or (some false) := by
    have hperm := map_value_perm h
    rw [← Kleene.disjoinValue_eq, ← Kleene.disjoinValue_eq, disjoinValue, disjoinValue,
      hperm.any_eq, hperm.any_eq]
  have hmatched : Matched K (os.map confidence) (os'.map confidence) :=
    h.map fun _ _ hx => hx.confidence
  exact ⟨hvalue, by rw [disjunction, disjunction, hvalue, awaited_eq h],
    hK.greatest (by simpa using hne) hmatched⟩

/-- A logical operator combines outcomes that match to outcomes that do. -/
theorem varies_combine {op : Operator} (hl : op.isLogical = true)
    (hone : op = .not → os.length = 1) (ho : PolicyGraph.combine (some op) os = .ok o)
    (ho' : PolicyGraph.combine (some op) os' = .ok o') : o.Varies K o' := by
  cases os with
  | nil => cases op <;> cases ho
  | cons x xs =>
      cases os' with
      | nil => cases h.length_eq
      | cons x' xs' =>
          cases op <;> try cases hl
          · cases ho
            cases ho'
            rw [conjoin_eq, conjoin_eq]
            exact varies_conjunction hK h
          · cases ho
            cases ho'
            rw [disjoin_eq, disjoin_eq]
            exact varies_disjunction hK h (by simp)
          · cases ho
            cases ho'
            obtain rfl : xs = [] := by simpa using hone rfl
            obtain ⟨y, hy, hxy⟩ := h.exists_left List.mem_cons_self
            exact List.mem_singleton.mp hy ▸ hxy

omit hK

/-- What is said of a combination depends on its operands up to their order and confidences. -/
theorem combinationText_eq (ho : o.Varies K o') (operator : String) :
    combinationText operator os o = combinationText operator os' o' := by
  have hcount : ∀ v, countOf v os = countOf v os' := by
    intro v
    have hfilter := h.filter (p := fun o => o.value == some v) (q := fun o => o.value == some v)
      fun x _ y _ hxy => by rw [hxy.value]
    rw [countOf, countOf, hfilter.length_eq]
  unfold combinationText
  simp only [h.length_eq, hcount, ho.value, ho.pending]

end Combinations

theorem Varies.negateIf (h : o.Varies K o') (b : Bool) :
    (o.negateIf b).Varies K (o'.negateIf b) := by
  cases b with
  | false => exact h
  | true => exact ⟨congrArg (Option.map not) h.value, h.pending, h.confidence⟩

end Outcome

section Leaves

/-- Nodes that say the same but for their confidences, which are related. -/
structure Node.Varies (K : Number → Number → Prop) (n n' : Node) : Prop where
  id : n.id = n'.id
  rule : n.rule = n'.rule
  citedClause : n.citedClause = n'.citedClause
  subject : n.subject = n'.subject
  operator? : n.operator? = n'.operator?
  value? : n.value? = n'.value?
  confidence : K n.confidence n'.confidence

/-- The nodes of heads that differ in their confidences do so too. -/
theorem Head.Varies.node {h k : Head} (hk : h.Varies K k) (cfg : Settings) (policy : String) :
    (Plan.conditionNode cfg policy h).Varies K (Plan.conditionNode cfg policy k) where
  id := congrArg (fun x => Json.str (Node.conditionKey x)) hk.id.symm
  rule := by rw [Plan.conditionNode_rule, Plan.conditionNode_rule, hk.id]
  citedClause := by
    rw [Plan.conditionNode_citedClause, Plan.conditionNode_citedClause, hk.clause]
  subject := by rw [Plan.conditionNode_subject, Plan.conditionNode_subject, hk.subject]
  operator? := by rw [Plan.conditionNode_operator?, Plan.conditionNode_operator?, hk.operator]
  value? := by rw [Plan.conditionNode_value?, Plan.conditionNode_value?, hk.value]
  confidence := by
    obtain ⟨x, y, hx, hy, hxy⟩ := hk.confidence
    simpa [Plan.conditionNode, hx, hy] using hxy

variable {n n' : Node} {o o' : Outcome} {e e' : Evaluated} {inputs : Inputs}

/-- What a finding is made of. -/
theorem findingOn_eq_ok {rule clause : Json} {operator text : String} {consulted : Inputs}
    {pending : List Json} {f : Finding}
    (h : findingOn n rule clause operator consulted o text pending = .ok f) :
    ∃ id r c ps, Schema.text n.id = .ok id ∧ Schema.nullable Schema.text rule = .ok r ∧
      Schema.nullable Schema.text clause = .ok c ∧
      Schema.list Schema.text (.arr pending) = .ok ps ∧
      f = ⟨id, r, c, operator, consulted, o.value == some true, o.confidence, text, ps⟩ := by
  unfold findingOn Fault.ofChecked at h
  split at h
  next f' hmake =>
    cases h
    obtain ⟨k, ps, hk, hps, rfl⟩ := Checked.ap_eq_ok.mp hmake
    obtain ⟨l, x, hl, hx, rfl⟩ := Checked.ap_eq_ok.mp hk
    obtain ⟨m, c, hm, hc, rfl⟩ := Checked.ap_eq_ok.mp hl
    obtain ⟨q, r, hq, hr, rfl⟩ := Checked.ap_eq_ok.mp hm
    obtain ⟨id, hid, rfl⟩ := Checked.map_eq_ok.mp hq
    obtain rfl := Finding.confidenceReader_eq_ok (Checked.under_eq_ok.mp hx)
    exact ⟨id, r, c, ps, Checked.under_eq_ok.mp hid, Checked.under_eq_ok.mp hr,
      Checked.under_eq_ok.mp hc, Checked.under_eq_ok.mp hps, rfl⟩
  · cases h

/-- Findings that are made of the same but for a related confidence differ in nothing else. -/
theorem Finding.varies_of_findingOn (hid : n.id = n'.id) (ho : o.Varies K o') {rule clause : Json}
    {operator text : String} {consulted : Inputs} {pending : List Json} {f f' : Finding}
    (hf : findingOn n rule clause operator consulted o text pending = .ok f)
    (hf' : findingOn n' rule clause operator consulted o' text pending = .ok f') :
    f.Varies K f' := by
  obtain ⟨id, r, c, ps, hn, hr, hc, hps, rfl⟩ := findingOn_eq_ok hf
  obtain ⟨id', r', c', ps', hn', hr', hc', hps', rfl⟩ := findingOn_eq_ok hf'
  rw [← hid, hn] at hn'
  rw [hr] at hr'
  rw [hc] at hc'
  rw [hps] at hps'
  cases hn'
  cases hr'
  cases hc'
  cases hps'
  exact ⟨by rw [ho.value], ho.confidence⟩

/-- Evaluations match that end in findings on outcomes that do. -/
theorem Evaluated.varies_of_findingOn {fs fs' : List Finding}
    (hfs : Matched (Finding.Varies K) fs fs') (hid : n.id = n'.id) (ho : o.Varies K o')
    {rule clause : Json} {operator text : String} {consulted : Inputs} {pending : List Json}
    {missing : TextSet}
    (h : (do
      let f ← findingOn n rule clause operator consulted o text pending
      return ⟨o, fs ++ [f], missing⟩) = Except.ok e)
    (h' : (do
      let f ← findingOn n' rule clause operator consulted o' text pending
      return ⟨o', fs' ++ [f], missing⟩) = Except.ok e') : e.Varies K e' := by
  obtain ⟨f, hf, h⟩ := Attempt.bind_eq_ok.mp h
  obtain ⟨f', hf', h'⟩ := Attempt.bind_eq_ok.mp h'
  cases h
  cases h'
  exact ⟨ho, hfs.append (.cons (Finding.varies_of_findingOn hid ho hf hf') .nil), rfl⟩

theorem Node.Varies.evaluateGiven (hn : n.Varies K n') {op : Operator} {input : String × Json}
    {holds : Bool} {text : String} (h : evaluateGiven n op input holds text = .ok e)
    (h' : evaluateGiven n' op input holds text = .ok e') : e.Varies K e' := by
  have ho : Outcome.Varies K ⟨some holds, n.confidence, .empty⟩
      ⟨some holds, n'.confidence, .empty⟩ := ⟨rfl, rfl, hn.confidence⟩
  rw [Eligibility.evaluateGiven, findingOnRule, ← hn.rule, ← hn.citedClause] at h'
  exact Evaluated.varies_of_findingOn .nil hn.id ho h h'

theorem Node.Varies.evaluateMissing (hn : n.Varies K n') {op : Operator} {text : String}
    (h : evaluateMissing n op text = .ok e) (h' : evaluateMissing n' op text = .ok e') :
    e.Varies K e' := by
  have ho : Outcome.Varies K ⟨none, n.confidence, nameSet n.subject⟩
      ⟨none, n'.confidence, nameSet n.subject⟩ := ⟨rfl, rfl, hn.confidence⟩
  rw [Eligibility.evaluateMissing, findingOnRule, ← hn.rule, ← hn.citedClause, ← hn.subject] at h'
  exact Evaluated.varies_of_findingOn .nil hn.id ho h h'

theorem Node.Varies.evaluateSupplied (hn : n.Varies K n') {op : Operator} {v : Operand}
    {text : String} {input : String × Json} (h : evaluateSupplied n op v text input = .ok e)
    (h' : evaluateSupplied n' op v text input = .ok e') : e.Varies K e' := by
  unfold Eligibility.evaluateSupplied at h h'
  cases hs : (Constraint.mk input.1 op v).satisfiedBy input.2 with
  | answer b => cases b <;> (rw [hs] at h h'; exact hn.evaluateGiven h h')
  | mismatch m =>
      rw [hs] at h h'
      exact hn.evaluateGiven h h'
  | outOfRange =>
      rw [hs] at h
      cases h
  | noInterval =>
      rw [hs] at h
      cases h

/-- Comparisons that say the same against the same inputs come out the same. -/
theorem Node.Varies.evaluateLeaf (hn : n.Varies K n') (h : evaluateLeaf inputs n = .ok e)
    (h' : evaluateLeaf inputs n' = .ok e') : e.Varies K e' := by
  have hcondition : (Literal.mk n' true).condition = (Literal.mk n true).condition := by
    unfold Literal.condition Literal.operator?
    rw [hn.operator?, hn.subject, hn.value?]
  rw [Eligibility.evaluateLeaf, hcondition, ← hn.subject] at h'
  obtain ⟨c, hc, h⟩ := Attempt.bind_eq_ok.mp h
  obtain ⟨text, htext, h⟩ := Attempt.bind_eq_ok.mp h
  rw [hc, Attempt.ok_bind, htext, Attempt.ok_bind] at h'
  split at h
  next o v ho hv =>
    rw [ho, hv] at h'
    dsimp only at h'
    cases hinput : inputFor inputs n.subject with
    | some input =>
        rw [hinput] at h h'
        exact hn.evaluateSupplied h h'
    | none =>
        rw [hinput] at h h'
        exact hn.evaluateMissing h h'
  · cases h

end Leaves

section Parts

variable {es es' : List Evaluated}

theorem Evaluated.varies_findingsOf (h : Matched (Evaluated.Varies K) es es') :
    Matched (Finding.Varies K) (findingsOf es) (findingsOf es') :=
  h.flatMap fun _ _ _ _ he => he.findings

theorem Evaluated.missingOf_eq (h : Matched (Evaluated.Varies K) es es') :
    missingOf es = missingOf es' := by
  refine TextSet.ext_members fun x => ?_
  have hiff : x ∈ missingOf es ↔ x ∈ missingOf es' := by
    rw [mem_missingOf, mem_missingOf]
    constructor
    · rintro ⟨e, he, hx⟩
      obtain ⟨e', he', hee⟩ := h.exists_right he
      exact ⟨e', he', hee.missing ▸ hx⟩
    · rintro ⟨e', he', hx⟩
      obtain ⟨e, he, hee⟩ := h.exists_left he'
      exact ⟨e, he, hee.missing ▸ hx⟩
  simpa [TextSet.mem_def] using hiff

end Parts

namespace PolicyGraph

variable {cfg : Settings} {g h : PolicyGraph} {p q : Plan} {inputs : Inputs} {n n' : Node}
  {e e' : Evaluated}

section Rules

/-- Rules of one operator whose operands match come out the same. -/
theorem varies_concludeRule (hK : IsRespected K) (hn : n.Varies K n') {op : Operator}
    (hop : n.operator? = .ok (some op)) (hl : op.isLogical = true)
    {es es' : List (Evaluated × Bool)} (hone : op = .not → es.length = 1)
    (hes : Matched (fun x y => x.1.Varies K y.1 ∧ x.2 = y.2) es es')
    (he : concludeRule n es = .ok e) (he' : concludeRule n' es' = .ok e') : e.Varies K e' := by
  rw [concludeRule, hop, Attempt.ok_bind] at he
  rw [concludeRule, ← hn.operator?, hop, Attempt.ok_bind] at he'
  obtain ⟨o, ho, he⟩ := Attempt.bind_eq_ok.mp he
  obtain ⟨o', ho', he'⟩ := Attempt.bind_eq_ok.mp he'
  have hos : Matched (Outcome.Varies K) (es.map fun e => e.1.outcome.negateIf e.2)
      (es'.map fun e => e.1.outcome.negateIf e.2) :=
    hes.map fun x y hxy => hxy.2 ▸ hxy.1.outcome.negateIf x.2
  have hparts : Matched (Evaluated.Varies K) (es.map Prod.fst) (es'.map Prod.fst) :=
    hes.map fun _ _ hxy => hxy.1
  have hout : o.Varies K o' :=
    Outcome.varies_combine hK hos hl (fun hnot => by simpa using hone hnot) ho ho'
  dsimp only at he'
  rw [findingOnRule, ← hn.rule, ← hn.citedClause, ← Outcome.combinationText_eq hos hout,
    pendingNames, ← hout.pending, ← Evaluated.missingOf_eq hparts] at he'
  exact Evaluated.varies_of_findingOn (Evaluated.varies_findingsOf hparts) hn.id hout he he'

/-- Evaluations of rules that match do so too, by induction on the trees. -/
theorem varies_evaluateRule (hK : IsRespected K) (hg : g.IsDrawnFrom cfg p)
    (hh : h.IsDrawnFrom cfg q) {policy : String} {r t : Rule} (hr : (policy, r) ∈ p.placed)
    (ht : (policy, t) ∈ q.placed) (hrt : r.Matches (Head.Varies K) t) {fuel fuel' : Nat}
    (he : g.evaluateRule inputs fuel (Plan.conditionNode cfg policy r.head) = .ok e)
    (he' : h.evaluateRule inputs fuel' (Plan.conditionNode cfg policy t.head) = .ok e') :
    e.Varies K e' := by
  induction r using Rule.induction generalizing t fuel fuel' e e' with
  | node k cs ih =>
      cases fuel with
      | zero => cases he
      | succ fuel =>
      cases fuel' with
      | zero => cases he'
      | succ fuel' =>
      have hn := hrt.head.node cfg policy
      have hoperator := hrt.head.operator
      rw [evaluateRule, Plan.conditionNode_isLeaf] at he he'
      rw [hoperator] at he'
      split_ifs at he he' with hl
      · exact hn.evaluateLeaf he he'
      · have hl : k.operator.isLogical = true := by simpa using hl
        obtain ⟨bs, hbs, he⟩ := Attempt.bind_eq_ok.mp he
        obtain ⟨es, hes, he⟩ := Attempt.bind_eq_ok.mp he
        obtain ⟨bs', hbs', he'⟩ := Attempt.bind_eq_ok.mp he'
        obtain ⟨es', hes', he'⟩ := Attempt.bind_eq_ok.mp he'
        have hall := hg.forall₂_operands hr hbs hes
        have hall' := hh.forall₂_operands ht hbs' hes'
        have hmatched : Matched (fun x y => x.1.Varies K y.1 ∧ x.2 = y.2) es es' := by
          refine hrt.children.join hall hall' fun c hc d hd x y hcd hx hy => ⟨?_, ?_⟩
          · exact ih c hc (Plan.placed_child hr hc) (Plan.placed_child ht hd) hcd hx.1 hy.1
          · rw [hx.2, hy.2, Rule.operator, Rule.operator, hoperator]
        refine varies_concludeRule hK hn (Plan.conditionNode_operator? cfg policy k) hl
          (fun hnot => ?_) hmatched he he'
        rw [← hall.length_eq]
        exact ((hg.sound.rules _ hr).logical hl).2.2 hnot

end Rules

section Policies

theorem varies_evaluateExternal (hK : IsRespected K) {t : String} {requiredBy : Name}
    (hfirst : g.firstClause requiredBy = h.firstClause requiredBy)
    (he : g.evaluateExternal (Plan.externalNode t) requiredBy = .ok e)
    (he' : h.evaluateExternal (Plan.externalNode t) requiredBy = .ok e') : e.Varies K e' := by
  have hsame : h.evaluateExternal (Plan.externalNode t) requiredBy =
      g.evaluateExternal (Plan.externalNode t) requiredBy := by
    rw [evaluateExternal, evaluateExternal, hfirst]
  obtain rfl : e' = e := Except.ok.inj (he'.symm.trans (hsame.trans he))
  obtain ⟨f, hf, htells⟩ := evaluateExternal_finding he
  have hone : K e'.outcome.confidence e'.outcome.confidence := by
    rw [(evaluateExternal_awaits he).2]
    exact hK.one
  exact ⟨⟨rfl, rfl, hone⟩, hf ▸ .cons ⟨rfl, htells.confidence ▸ hone⟩ .nil, rfl⟩

/-- Policies whose parts match come out the same, if they cite the same clause first.  The clause
of a policy that a single part decides is not cited. -/
theorem varies_concludePolicy (hK : IsRespected K) (hid : n.id = n'.id)
    (hpolicy : n.policy = n'.policy) {es es' : List Evaluated}
    (hes : Matched (Evaluated.Varies K) es es')
    (hfirst : es.length ≠ 1 → g.firstClause n.policy = h.firstClause n.policy)
    (he : g.concludePolicy n es = .ok e) (he' : h.concludePolicy n' es' = .ok e') :
    e.Varies K e' := by
  match es, es', hes.length_eq with
  | [], [], _ =>
      unfold concludePolicy at he he'
      obtain ⟨clause, hclause, he⟩ := Attempt.bind_eq_ok.mp he
      dsimp only at he'
      rw [← hpolicy, ← hfirst (by simp), hclause, Attempt.ok_bind] at he'
      exact Evaluated.varies_of_findingOn .nil hid ⟨rfl, rfl, hK.one⟩ he he'
  | [x], [x'], _ =>
      cases he
      cases he'
      obtain ⟨y, hy, hxy⟩ := hes.exists_left List.mem_cons_self
      exact List.mem_singleton.mp hy ▸ hxy
  | x :: y :: xs, x' :: y' :: xs', _ =>
      unfold concludePolicy at he he'
      have hos : Matched (Outcome.Varies K) (x.outcome :: (y :: xs).map Evaluated.outcome)
          (x'.outcome :: (y' :: xs').map Evaluated.outcome) := hes.map fun _ _ hee => hee.outcome
      have hout := Outcome.varies_conjunction hK hos
      dsimp only at he he'
      rw [Outcome.conjoin_eq] at he he'
      obtain ⟨clause, hclause, he⟩ := Attempt.bind_eq_ok.mp he
      rw [← hpolicy, ← hfirst (by simp), hclause, Attempt.ok_bind,
        ← Outcome.combinationText_eq hos hout, pendingNames, ← hout.pending,
        ← Evaluated.missingOf_eq hes] at he'
      exact Evaluated.varies_of_findingOn (Evaluated.varies_findingsOf hes) hid hout he he'

section Plans

variable (hg : g.IsDrawnFrom cfg p) (hh : h.IsDrawnFrom cfg q)

include hg hh

theorem firstClause_of_matches {d d' : Document} (hd : d ∈ p.documents) (hd' : d' ∈ q.documents)
    (hpolicy : d.policy = d'.policy) (hclauses : d.clauses = d'.clauses) :
    g.firstClause (.str d.policy) = h.firstClause (.str d.policy) := by
  rw [firstClause, firstClause, hg.clausesOf_eq hd, hclauses, hpolicy, hh.clausesOf_eq hd']

/-- The rules of a policy match in plans that do, and so do their evaluations. -/
theorem varies_evaluateRoots (hK : IsRespected K) (hpq : p.Matches K q) {d d' : Document}
    (hd : d ∈ p.documents) (hd' : d' ∈ q.documents) (hpolicy : d.policy = d'.policy)
    {own own' : List Evaluated} (hown : g.evaluateRoots inputs (.str d.policy) = .ok own)
    (hown' : h.evaluateRoots inputs (.str d'.policy) = .ok own') :
    Matched (Evaluated.Varies K) own own' := by
  have hroots' := hh.forall₂_roots hd' hown'
  rw [← hpolicy] at hroots'
  refine (hpq.roots d.policy).join (hg.forall₂_roots hd hown) hroots' ?_
  intro r _ t _ x y hrt hx hy
  exact varies_evaluateRule hK hg hh hx.1 hy.1 hrt hx.2 hy.2

/-- Evaluations of a policy in graphs drawn from plans that match do so too, by induction on how
deep policies require each other. -/
theorem varies_evaluatePolicyTo (hK : IsRespected K) (hpq : p.Matches K q) {fuel fuel' : Nat}
    {stack : List String} {d d' : Document} (hd : d ∈ p.documents) (hd' : d' ∈ q.documents)
    (hpolicy : d.policy = d'.policy)
    (he : g.evaluatePolicyTo inputs fuel (stack.map .str)
      (Plan.policyNode cfg d (p.rootsOf d.policy)) = .ok e)
    (he' : h.evaluatePolicyTo inputs fuel' (stack.map .str)
      (Plan.policyNode cfg d' (q.rootsOf d'.policy)) = .ok e') : e.Varies K e' := by
  induction fuel generalizing fuel' stack d d' e e' with
  | zero => cases he
  | succ fuel ih =>
      cases fuel' with
      | zero => cases he'
      | succ fuel' =>
      obtain ⟨-, -, own, required, hown, hrequired, he⟩ := hg.exists_parts hd he
      obtain ⟨-, -, own', required', hown', hrequired', he'⟩ := hh.exists_parts hd' he'
      obtain ⟨d'', hd'', hsame, hrequires, hclauses⟩ := hpq.documents.exists_right hd
      obtain rfl : d'' = d' := Plan.document_eq hh.sound hd'' hd' (hsame.symm.trans hpolicy)
      rw [← hrequires] at hrequired'
      have hbelow : List.Forall₂ (Evaluated.Varies K) required required' := by
        refine Attempt.forall₂_join hrequired hrequired' ?_
        rintro t x y ⟨ht, ⟨a, ha, rfl, hx⟩ | ⟨hundeclared, hx⟩⟩
          ⟨-, ⟨b, hb, hba, hy⟩ | ⟨hundeclared', hy⟩⟩
        · rw [← hsame] at hy
          exact ih ha hb hba.symm hx hy
        · obtain ⟨b, hb, hab, -⟩ := hpq.documents.exists_right ha
          exact absurd (hab ▸ List.mem_map_of_mem hb) hundeclared'
        · obtain ⟨a, ha, hab, -⟩ := hpq.documents.exists_left hb
          exact absurd (hba ▸ hab ▸ List.mem_map_of_mem ha) hundeclared
        · have hclauses := hclauses.resolve_right fun hnone => by simp [hnone.1] at ht
          have hfirst := firstClause_of_matches hg hh hd hd' hsame hclauses
          rw [← hsame] at hy
          exact varies_evaluateExternal hK hfirst hx hy
      have hroots := varies_evaluateRoots hg hh hK hpq hd hd' hsame hown hown'
      refine varies_concludePolicy hK (congrArg (fun a => Json.str (Node.policyKey a)) hsame)
        (by simp [hsame]) (hroots.append (.of_forall₂ hbelow)) (fun hlength => ?_) he he'
      rw [Plan.policyNode_policy]
      refine hclauses.elim (firstClause_of_matches hg hh hd hd' hsame) fun ⟨hnone, hone⟩ => ?_
      refine absurd ?_ hlength
      rw [List.length_append, ← (hg.forall₂_roots hd hown).length_eq, hone,
        ← hrequired.length_eq, hnone]
      rfl

/-- Verdicts on a policy whose rules match are concluded from evaluations that match. -/
theorem varies_of_verdicts (hK : IsRespected K) (hpq : p.Matches K q) {settings : Settings}
    {policy : String} {v w : Verdict} (hv : g.verdict settings inputs (.str policy) = .ok v)
    (hw : h.verdict settings inputs (.str policy) = .ok w) :
    ∃ e e' : Evaluated, e.Varies K e' ∧ conclude settings (.str policy) e = .ok v ∧
      conclude settings (.str policy) e' = .ok w := by
  obtain ⟨n, hn, hv⟩ := Attempt.bind_eq_ok.mp hv
  obtain ⟨e, he, hconclude⟩ := Attempt.bind_eq_ok.mp hv
  obtain ⟨n', hn', hw⟩ := Attempt.bind_eq_ok.mp hw
  obtain ⟨e', he', hconclude'⟩ := Attempt.bind_eq_ok.mp hw
  obtain ⟨d, hd, rfl, rfl⟩ := hg.exists_document hn
  obtain ⟨d', hd', hpolicy, rfl⟩ := hh.exists_document hn'
  rw [evaluatePolicy, ← List.map_nil (f := Json.str)] at he he'
  exact ⟨e, e', varies_evaluatePolicyTo hg hh hK hpq hd hd' hpolicy.symm he he', hconclude,
    hconclude'⟩

end Plans

end Policies

section RuleSets

variable {s t : RuleSet}

/-- Where the verdict on a policy and inputs that are given as JSON comes from. -/
theorem evaluate_eq_ok_iff {settings : Settings} {policy inputs : Json} {v : Verdict} :
    (g.evaluate settings policy inputs).outcome = .ok v ↔
      ∃ es q, Fault.mappingOrEmpty inputs = .ok es ∧ Query.check policy es = .ok q ∧
        g.verdict settings q.inputs (.str q.policy) = .ok v := by
  constructor
  · intro h
    cases hes : Fault.mappingOrEmpty inputs with
    | error f => simp [evaluate, hes] at h
    | ok es =>
        obtain ⟨q, hq, hv⟩ := verdict_of_evaluate hes h
        exact ⟨es, q, rfl, hq, hv⟩
  · rintro ⟨es, q, hes, hq, hv⟩
    rw [evaluate_eq_answer settings g hes hq, answer, run_outcome, hv]

/-- What a verdict is made of. -/
theorem conclude_eq_ok {settings : Settings} {k : Name} {v : Verdict}
    (h : conclude settings k e = .ok v) : ∃ a, k = .str a ∧ v = {
      policy := a
      status := statusOf settings e.outcome
      trace := Step.enumerate 1 e.findings
      confidence := e.outcome.confidence
      requirements := if e.outcome.value.isNone then some e.outcome.pending.members else none
      warnings := e.missing.members.map missingWarning ++
        confidenceWarnings settings e.outcome.confidence } := by
  cases k with
  | str a => exact ⟨a, rfl, (Except.ok.inj h).symm⟩
  | _ => cases h

/-- Of rule sets that match, the second one is accepted where the first one is, and the graphs of
both are drawn from plans that match. -/
theorem exists_graphs_of_matches (hK : IsRespected K) (hst : s.Matches (Head.Varies K) t)
    (hs : s.validate cfg = .ok s) :
    t.validate cfg = .ok t ∧ ∃ g h p q, (s.build cfg).outcome = .ok g ∧
      (t.build cfg).outcome = .ok h ∧ g.IsDrawnFrom cfg p ∧ h.IsDrawnFrom cfg q ∧
      p.Matches K q := by
  have hconfidences : ∀ x y, K x y → Head.isConfidence y = true :=
    fun _ _ hxy => (hK.confidence hxy).2
  have ht : t.validate cfg = .ok t := RuleSet.validate_eq_ok_iff.mpr
    (hst.isWellFormed hconfidences (RuleSet.validate_eq_ok_iff.mp hs))
  obtain ⟨p, g, hp, hg, hgp, -⟩ := RuleSet.exists_build_of_validate hs
  obtain ⟨q, h, hq, hh, hhq, -⟩ := RuleSet.exists_build_of_validate ht
  exact ⟨ht, g, h, p, q, hg, hh, hgp, hhq, hst.plans (RuleSet.isAccepted_of_validate hs).1
    (RuleSet.isAccepted_of_validate ht).1 hp hq⟩

/-- Graphs drawn from plans that match return verdicts on the same queries, which are concluded
from evaluations that match. -/
theorem evaluate_of_matches (hK : IsRespected K) (hg : g.IsDrawnFrom cfg p)
    (hh : h.IsDrawnFrom cfg q) (hpq : p.Matches K q) (settings : Settings) (policy inputs : Json) :
    ((∃ v, (g.evaluate settings policy inputs).outcome = .ok v) ↔
      ∃ w, (h.evaluate settings policy inputs).outcome = .ok w) ∧
    ∀ v w, (g.evaluate settings policy inputs).outcome = .ok v →
      (h.evaluate settings policy inputs).outcome = .ok w →
      ∃ (k : Name) (e e' : Evaluated), e.Varies K e' ∧ conclude settings k e = .ok v ∧
        conclude settings k e' = .ok w := by
  simp only [evaluate_eq_ok_iff]
  refine ⟨⟨?_, ?_⟩, ?_⟩
  · rintro ⟨v, es, q, hes, hq, hv⟩
    obtain ⟨w, hw⟩ := (exists_verdict_of_matches hg hh hpq settings).mp ⟨v, hv⟩
    exact ⟨w, es, q, hes, hq, hw⟩
  · rintro ⟨w, es, q, hes, hq, hw⟩
    obtain ⟨v, hv⟩ := (exists_verdict_of_matches hg hh hpq settings).mpr ⟨w, hw⟩
    exact ⟨v, es, q, hes, hq, hv⟩
  · rintro v w ⟨es, q, hes, hq, hv⟩ ⟨es', q', hes', hq', hw⟩
    obtain rfl := Except.ok.inj (hes.symm.trans hes')
    obtain rfl : q = q' := by simpa [hq] using hq'
    obtain ⟨e, e', hee, hconclude⟩ := varies_of_verdicts hg hh hK hpq hv hw
    exact ⟨_, e, e', hee, hconclude⟩

end RuleSets

end PolicyGraph
end Eligibility
