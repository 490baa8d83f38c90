import Eligibility.Proofs.Commitments
import Eligibility.Proofs.RequirementChains
import Eligibility.Proofs.Satisfaction
/-!
# Contradictions within policies

**Clashes.**  Two commitments clash when they are on one variable and no value meets what both
ask for.

**Check.**  The check of a policy goes through its scenes and stops at the first comparison
that clashes with a commitment beside it.

**Results.**
* `precheck_cases`: the check finds a clash of a scene, or there is none.
* `exists_refuses`: a refused policy is refused because of two literals that clash.
* `satisfiedBy_of_precheck`: which values both literals of a refusal accept.
-/

namespace Eligibility

namespace Condition

theorem ofConstraint_inj {k l : Constraint} (h : ofConstraint k = ofConstraint l) : k = l := by
  obtain ⟨s, o, v⟩ := k
  obtain ⟨t, q, w⟩ := l
  simpa [ofConstraint] using h

/-- The question whether two constraints are jointly satisfiable, put to their conditions. -/
theorem jointly_ofConstraint (k l : Constraint) :
    jointly (ofConstraint k) (ofConstraint l) = answer (k.jointly l) := by
  obtain ⟨s, o, v⟩ := k
  obtain ⟨t, q, w⟩ := l
  unfold jointly
  by_cases hst : s = t
  · subst hst
    simp [ofConstraint, constraint, Constraint.jointly, Constraint.comparable, Constraint.domain,
      Constraint.textRange?]
  · simp [ofConstraint, Constraint.jointly, Constraint.comparable, hst, answer]

end Condition

namespace Commitment

/-- The constraint that holds when a commitment is kept. -/
def constraint? (c : Commitment) : Option Constraint :=
  c.head.value.bind fun v =>
    (if c.positive then some c.head.operator else c.head.operator.negated?).map fun o =>
      ⟨c.head.subject, o, v⟩

/-- Whether no value meets what two commitments on one variable ask for. -/
def Clashes (a b : Commitment) : Prop :=
  ∃ k l, a.constraint? = some k ∧ b.constraint? = some l ∧ k.jointly l = some false

variable {cfg : Settings} {p : Plan} {policy : String} {a b : Commitment}

theorem IsPlaced.exists_constraint (h : a.IsPlaced p policy) (hp : p.IsSound) :
    ∃ k, a.constraint? = some k ∧ k.IsOrdinary := by
  obtain ⟨r, hr, he, hl⟩ := h
  rw [he] at hl
  obtain ⟨-, v, hv, hfits, hfinite⟩ := (hp.rules _ hr).comparison (by rw [he]; exact hl)
  rw [he] at hv hfits
  obtain ⟨o, hneg, ho, hsame⟩ := Operator.exists_negated? hl
  refine ⟨⟨a.head.subject, if a.positive then a.head.operator else o, v⟩, ?_, ⟨?_, hfinite⟩⟩
  · rw [constraint?, hv, hneg]
    cases a.positive <;> rfl
  · split
    · exact ⟨hl, hfits⟩
    · exact ⟨ho, (hsame _).symm.trans hfits⟩

/-- The literal of a commitment says what the commitment asks for. -/
theorem condition_literal (cfg : Settings) (policy : String) {k : Constraint}
    (hk : a.constraint? = some k) :
    (a.literal cfg policy).condition = .ok (.ofConstraint k) := by
  obtain ⟨v, hv, ho⟩ := Option.bind_eq_some_iff.mp hk
  obtain ⟨o, ho, rfl⟩ := Option.map_eq_some_iff.mp ho
  rw [Literal.condition, Literal.operator?, literal, Plan.conditionNode_operator?,
    Plan.conditionNode_value?, Plan.conditionNode_subject, hv]
  cases hpositive : a.positive <;> simp [hpositive] at ho <;>
    simp [ho, Condition.ofConstraint]

theorem describe_literal {k : Constraint} (hk : a.constraint? = some k) :
    (a.literal cfg policy).describe = .ok k.describe := by
  rw [Literal.describe, condition_literal _ _ hk]
  exact Condition.describe_ofConstraint k

theorem subject_of_constraint {k : Constraint} (hk : a.constraint? = some k) :
    k.subject = a.head.subject := by
  obtain ⟨v, -, ho⟩ := Option.bind_eq_some_iff.mp hk
  obtain ⟨o, -, rfl⟩ := Option.map_eq_some_iff.mp ho
  rfl

theorem Clashes.subject_eq (h : a.Clashes b) : a.head.subject = b.head.subject := by
  obtain ⟨k, l, hk, hl, hno⟩ := h
  rw [← subject_of_constraint hk, ← subject_of_constraint hl]
  by_contra hne
  simp [Constraint.jointly, Constraint.comparable, hne] at hno

theorem Clashes.symm (h : a.Clashes b) (ha : a.IsPlaced p policy) {other : String}
    (hb : b.IsPlaced p other) (hp : p.IsSound) : b.Clashes a := by
  obtain ⟨k, l, hk, hl, hno⟩ := h
  obtain ⟨k', hk', hkfit⟩ := ha.exists_constraint hp
  obtain ⟨l', hl', hlfit⟩ := hb.exists_constraint hp
  obtain rfl := Option.some.inj (hk.symm.trans hk')
  obtain rfl := Option.some.inj (hl.symm.trans hl')
  exact ⟨l, k, hl, hk, (Constraint.jointly_comm hlfit hkfit).trans hno⟩

/-- Whether two placed commitments clash is what their conditions are asked. -/
theorem exists_jointly {other : String} (ha : a.IsPlaced p policy) (hb : b.IsPlaced p other)
    (hp : p.IsSound) {c d : Condition} (hc : (a.literal cfg policy).condition = .ok c)
    (hd : (b.literal cfg other).condition = .ok d) :
    ∃ answer, c.jointly d = .ok answer ∧ (answer = false ↔ a.Clashes b) := by
  obtain ⟨k, hk, hkfit⟩ := ha.exists_constraint hp
  obtain ⟨l, hl, hlfit⟩ := hb.exists_constraint hp
  obtain rfl := Except.ok.inj (hc.symm.trans (condition_literal _ _ hk))
  obtain rfl := Except.ok.inj (hd.symm.trans (condition_literal _ _ hl))
  obtain ⟨answer, hanswer⟩ := Constraint.exists_jointly hkfit.toIsFitting hlfit.toIsFitting
  refine ⟨answer, by rw [Condition.jointly_ofConstraint, hanswer]; rfl, ?_⟩
  constructor
  · rintro rfl
    exact ⟨k, l, hk, hl, hanswer⟩
  · rintro ⟨k', l', hk', hl', hno⟩
    obtain rfl := Option.some.inj (hk.symm.trans hk')
    obtain rfl := Option.some.inj (hl.symm.trans hl')
    exact Option.some.inj (hanswer.symm.trans hno)

end Commitment

namespace PolicyGraph

variable {cfg : Settings} {g : PolicyGraph} {p : Plan} {policy : String}

section Scans

variable {a l : Commitment} {c : Condition} {ls : List Commitment}

/-- The scan ends at a commitment that the comparison clashes with, and passes over other ones. -/
theorem exists_clash?_cons (hp : p.IsSound) (ha : a.IsPlaced p policy) (hl : l.IsPlaced p policy)
    (hc : (a.literal cfg policy).condition = .ok c) (rest : List Literal) :
    ∃ ends : Bool, (ends = true ↔ a.Clashes l) ∧
      Path.clash? c (l.literal cfg policy :: rest) =
        if ends then .ok (some (l.literal cfg policy)) else Path.clash? c rest := by
  obtain ⟨k, hk, -⟩ := ha.exists_constraint hp
  obtain ⟨m, hm, -⟩ := hl.exists_constraint hp
  have hd := Commitment.condition_literal cfg policy hm
  obtain ⟨answer, hanswer, hiff⟩ := Commitment.exists_jointly ha hl hp hc hd
  obtain rfl := Except.ok.inj (hc.symm.trans (Commitment.condition_literal _ _ hk))
  refine ⟨!answer, by rw [← hiff]; simp, ?_⟩
  have hsame : (l.literal cfg policy).subject.same (Condition.ofConstraint k).subject =
      decide (l.head.subject = a.head.subject) := by
    rw [Literal.subject, Commitment.literal, Plan.conditionNode_subject, Condition.ofConstraint,
      Commitment.subject_of_constraint hk, Json.same_str]
  rw [Path.clash?, hsame]
  by_cases hsubject : l.head.subject = a.head.subject
  · rw [if_neg (by simpa using hsubject), hd, Attempt.ok_bind, hanswer, Attempt.ok_bind]
    cases answer <;> rfl
  · have hno : ¬ a.Clashes l := fun h => hsubject h.subject_eq.symm
    have htrue : answer = true := by
      rw [← Bool.not_eq_false, hiff]
      exact hno
    rw [if_pos (by simpa using hsubject), htrue]
    rfl

/-- A scene is scanned for the first commitment that the comparison clashes with. -/
theorem clash?_cases (hp : p.IsSound) (ha : a.IsPlaced p policy)
    (hc : (a.literal cfg policy).condition = .ok c) (hls : ∀ l ∈ ls, l.IsPlaced p policy) :
    Path.clash? c (ls.map (Commitment.literal cfg policy)) = .ok none ∧
        (∀ l ∈ ls, ¬ a.Clashes l) ∨
      ∃ l ∈ ls, Path.clash? c (ls.map (Commitment.literal cfg policy)) =
        .ok (some (l.literal cfg policy)) ∧ a.Clashes l := by
  induction ls with
  | nil => exact .inl ⟨rfl, by simp⟩
  | cons l r ih =>
      obtain ⟨hl, hr⟩ := List.forall_mem_cons.mp hls
      obtain ⟨ends, hiff, hstep⟩ :=
        exists_clash?_cons hp ha hl hc (r.map (Commitment.literal cfg policy))
      rw [List.map_cons, hstep]
      cases ends with
      | true => exact .inr ⟨l, by simp, rfl, hiff.mp rfl⟩
      | false =>
          have hno : ¬ a.Clashes l := by simp [← hiff]
          rcases ih hr with ⟨hnone, hall⟩ | ⟨m, hm, hfound, hclash⟩
          · exact .inl ⟨hnone, List.forall_mem_cons.mpr ⟨hno, hall⟩⟩
          · exact .inr ⟨m, List.mem_cons_of_mem _ hm, hfound, hclash⟩

/-- The scenes of a policy are scanned for the first comparison that clashes with a commitment
beside it. -/
theorem firstContradiction?_cases (cfg : Settings) (hp : p.IsSound) {ss : List Scene}
    (hss : ∀ s ∈ ss, s.leaf.IsPlaced p policy ∧ ∀ c ∈ s.context, c.IsPlaced p policy) :
    firstContradiction? (ss.map (Scene.path cfg policy)) = .ok none ∧
        (∀ s ∈ ss, ∀ c ∈ s.context, ¬ s.leaf.Clashes c) ∨
      ∃ s ∈ ss, ∃ c ∈ s.context, s.leaf.Clashes c ∧
        firstContradiction? (ss.map (Scene.path cfg policy)) =
          .ok (some (s.leaf.literal cfg policy, c.literal cfg policy)) := by
  induction ss with
  | nil => exact .inl ⟨rfl, by simp⟩
  | cons s r ih =>
      obtain ⟨⟨hleaf, hcontext⟩, hr⟩ := List.forall_mem_cons.mp hss
      obtain ⟨k, hk, -⟩ := hleaf.exists_constraint hp
      have hc := Commitment.condition_literal cfg policy hk
      have hscan : (s.path cfg policy).contradiction? =
          (Path.clash? (.ofConstraint k) (s.context.map (Commitment.literal cfg policy))).map
            fun found => found.map fun l => (s.leaf.literal cfg policy, l) := by
        rw [Path.contradiction?, Scene.path, hc, Attempt.ok_bind]
        cases Path.clash? (.ofConstraint k) (s.context.map (Commitment.literal cfg policy)) <;> rfl
      rw [List.map_cons, firstContradiction?, hscan]
      rcases clash?_cases hp hleaf hc hcontext with ⟨hnone, hno⟩ | ⟨c, hmem, hfound, hclash⟩
      · rw [hnone]
        rcases ih hr with ⟨hrest, hall⟩ | ⟨t, ht, c, hmem, hclash, hfound⟩
        · exact .inl ⟨hrest, List.forall_mem_cons.mpr ⟨hno, hall⟩⟩
        · exact .inr ⟨t, List.mem_cons_of_mem _ ht, c, hmem, hclash, hfound⟩
      · rw [hfound]
        exact .inr ⟨s, by simp, c, hmem, hclash, rfl⟩

end Scans

section Checks

/-- Two commitments of a policy in one order or the other. -/
def IsPairOf (x : Commitment × Commitment) (a b : Commitment) : Prop := x = (a, b) ∨ x = (b, a)

theorem exists_ordered (cfg : Settings) (policy : String) (a b : Commitment) :
    ∃ x, IsPairOf x a b ∧ Literal.ordered (a.literal cfg policy) (b.literal cfg policy) =
      .ok (x.1.literal cfg policy, x.2.literal cfg policy) := by
  have hbefore :
      ∃ swap, Literal.before (b.literal cfg policy) (a.literal cfg policy) = .ok swap := by
    simp only [Literal.before, Literal.clause, Literal.rule, Commitment.literal,
      Plan.conditionNode_citedClause, Plan.conditionNode_rule]
    split
    · exact ⟨_, rfl⟩
    · split <;> exact ⟨_, rfl⟩
  obtain ⟨swap, hswap⟩ := hbefore
  rw [Literal.ordered, hswap]
  cases swap
  · exact ⟨(a, b), .inl rfl, rfl⟩
  · exact ⟨(b, a), .inr rfl, rfl⟩

theorem cited_literal {a : Commitment} {k : Constraint} (hk : a.constraint? = some k) :
    (a.literal cfg policy).cited = .ok ⟨k.describe, .str a.head.id, .str a.head.clause⟩ := by
  rw [Literal.cited, Commitment.describe_literal hk]
  simp [Literal.rule, Literal.clause, Commitment.literal]

/-- The check of a policy names two commitments of one scene that clash, or there are none. -/
theorem IsDrawnFrom.precheck_cases (h : g.IsDrawnFrom cfg p) {d : Document}
    (hd : d ∈ p.documents) :
    g.precheck (.str d.policy) = .ok () ∧
        (∀ s ∈ p.scenesOf d.policy, ∀ c ∈ s.context, ¬ s.leaf.Clashes c) ∨
      ∃ s ∈ p.scenesOf d.policy, ∃ c ∈ s.context, s.leaf.Clashes c ∧
        ∃ x k l, IsPairOf x s.leaf c ∧ x.1.constraint? = some k ∧ x.2.constraint? = some l ∧
          g.precheck (.str d.policy) = .error (.contradiction (.str d.policy)
            ⟨k.describe, .str x.1.head.id, .str x.1.head.clause⟩
            ⟨l.describe, .str x.2.head.id, .str x.2.head.clause⟩ (.str s.leaf.head.subject)) := by
  have hss : ∀ s ∈ p.scenesOf d.policy,
      s.leaf.IsPlaced p d.policy ∧ ∀ c ∈ s.context, c.IsPlaced p d.policy := fun s hs =>
    ⟨(Plan.isPlaced_of_mem_scenesOf h.sound hd hs).1,
      fun c hc => ((Plan.isPlaced_of_mem_scenesOf h.sound hd hs).2 c hc).1⟩
  rw [precheck, contradiction?, h.hasTreesOf.paths_eq hd]
  rcases firstContradiction?_cases cfg h.sound hss with
    ⟨hnone, hall⟩ | ⟨s, hs, c, hc, hclash, hfound⟩
  · exact .inl ⟨by rw [Except.bind, hnone]; rfl, hall⟩
  · obtain ⟨x, hx, hordered⟩ := exists_ordered cfg d.policy s.leaf c
    have hplaced : x.1.IsPlaced p d.policy ∧ x.2.IsPlaced p d.policy := by
      rcases hx with rfl | rfl
      · exact ⟨(hss s hs).1, (hss s hs).2 c hc⟩
      · exact ⟨(hss s hs).2 c hc, (hss s hs).1⟩
    obtain ⟨k, hk, -⟩ := hplaced.1.exists_constraint h.sound
    obtain ⟨l, hl, -⟩ := hplaced.2.exists_constraint h.sound
    refine .inr ⟨s, hs, c, hc, hclash, x, k, l, hx, hk, hl, ?_⟩
    rw [Except.bind, hfound, Attempt.ok_bind]
    simp only [contradictionFault, hordered, Attempt.ok_bind, cited_literal hk, cited_literal hl]
    simp [Literal.subject, Commitment.literal]
    rfl

end Checks

section Refusals

/-- Whether a fault refuses a policy because of two literals of one of its paths, which ask for two
constraints on one variable. -/
def Refuses (g : PolicyGraph) (policy : String) (f : Fault) (k l : Constraint) : Prop :=
  ∃ ps, g.paths (.str policy) = .ok ps ∧ ∃ x ∈ ps, ∃ o ∈ x.context, ∃ a b : Literal,
    (a = x.leaf ∧ b = o ∨ a = o ∧ b = x.leaf) ∧
    a.condition = .ok (.ofConstraint k) ∧ b.condition = .ok (.ofConstraint l) ∧
    k.subject = l.subject ∧ f = .contradiction (.str policy) ⟨k.describe, a.rule, a.clause⟩
      ⟨l.describe, b.rule, b.clause⟩ (.str k.subject)

/-- Where the check of a policy of a compiled graph fails, it refuses two literals that clash. -/
theorem IsDrawnFrom.exists_refuses (h : g.IsDrawnFrom cfg p) {d : Document} (hd : d ∈ p.documents)
    {f : Fault} (hf : g.precheck (.str d.policy) = .error f) :
    ∃ k l : Constraint, k.IsOrdinary ∧ l.IsOrdinary ∧ k.jointly l = some false ∧
      g.Refuses d.policy f k l := by
  rcases h.precheck_cases hd with ⟨hok, -⟩ | ⟨s, hs, c, hc, hclash, x, k, l, hx, hk, hl, herror⟩
  · rw [hf] at hok
    cases hok
  obtain ⟨hleaf, hcontext⟩ := Plan.isPlaced_of_mem_scenesOf h.sound hd hs
  obtain rfl := Except.error.inj (hf.symm.trans herror)
  have hplaced : x.1.IsPlaced p d.policy ∧ x.2.IsPlaced p d.policy ∧ x.1.Clashes x.2 ∧
      x.1.head.subject = s.leaf.head.subject := by
    rcases hx with rfl | rfl
    · exact ⟨hleaf, (hcontext c hc).1, hclash, rfl⟩
    · exact ⟨(hcontext c hc).1, hleaf, hclash.symm hleaf (hcontext c hc).1 h.sound,
        hclash.subject_eq.symm⟩
  obtain ⟨hfirst, hsecond, hclash', hsubject⟩ := hplaced
  obtain ⟨k', hk', hkfit⟩ := hfirst.exists_constraint h.sound
  obtain ⟨l', hl', hlfit⟩ := hsecond.exists_constraint h.sound
  obtain ⟨k'', l'', hk'', hl'', hno⟩ := id hclash'
  obtain rfl := Option.some.inj (hk.symm.trans hk')
  obtain rfl := Option.some.inj (hl.symm.trans hl')
  obtain rfl := Option.some.inj (hk.symm.trans hk'')
  obtain rfl := Option.some.inj (hl.symm.trans hl'')
  have hks := Commitment.subject_of_constraint hk
  refine ⟨k, l, hkfit, hlfit, hno, _, h.hasTreesOf.paths_eq hd, s.path cfg d.policy,
    List.mem_map_of_mem hs, c.literal cfg d.policy, List.mem_map_of_mem hc, x.1.literal cfg d.policy,
    x.2.literal cfg d.policy, ?_, Commitment.condition_literal _ _ hk,
    Commitment.condition_literal _ _ hl, ?_, ?_⟩
  · rcases hx with rfl | rfl
    · exact .inl ⟨rfl, rfl⟩
    · exact .inr ⟨rfl, rfl⟩
  · rw [hks, hclash'.subject_eq, Commitment.subject_of_constraint hl]
  · rw [hks, hsubject]
    simp [Literal.rule, Literal.clause, Commitment.literal]

/-- Where a declared policy of the graph of a payload is refused, no value that can be given for
the variable is accepted by both constraints, with one exception: a list of texts, if both
constraints ask for membership.  Integers that round away are left out. -/
theorem satisfiedBy_of_precheck {payload : Json}
    (hg : (RuleSet.compile cfg payload).outcome = .ok g) (hpolicy : g.IsInternal policy)
    {f : Fault} (hf : g.precheck (.str policy) = .error f) :
    ∃ k l : Constraint, g.Refuses policy f k l ∧ ∀ given : Json,
      (∀ n, given = .int n → ¬ k.RoundsAway n ∧ ¬ l.RoundsAway n) →
      k.satisfiedBy given = .answer true → l.satisfiedBy given = .answer true →
      (∃ items, given = .arr items) ∧ Constraint.excludes k.operator = false ∧
        Constraint.excludes l.operator = false := by
  obtain ⟨p, h⟩ := (isCompiled_of_compile hg).exists_isDrawnFrom
  obtain ⟨d, hd, rfl⟩ := List.mem_map.mp (h.isInternal_iff.mp hpolicy)
  obtain ⟨k, l, hk, hl, hno, hrefuses⟩ := h.exists_refuses hd hf
  exact ⟨k, l, hrefuses, fun given hround hgk hgl =>
    Constraint.exists_list_of_jointly hk hl hno hround hgk hgl⟩

end Refusals

section Rivals

/-- The head of a comparison of a status with a text. -/
def statusHead (id : String) (o : Operator) (s : String) : Head :=
  { id, subject := "status", operator := o, value := some (.text s), clause := "c",
    confidence := some Number.one }

/-- A policy of two comparisons of a status with texts. -/
def rivals (o : Operator) (s : String) (q : Operator) (t : String) : RuleSet where
  rules := [.node (statusHead "a" o s) [], .node (statusHead "b" q t) []]
  documents := [{ policy := "p", clauses := [{ id := "c" }] }]

def rivalsPlan (o : Operator) (s : String) (q : Operator) (t : String) : Plan :=
  ⟨(rivals o s q t).documents, (rivals o s q t).rules.map ("p", ·)⟩

/-- The payload of a comparison of a status with a text. -/
def statusPayload (id : String) (o : Operator) (s : String) : Json :=
  .obj [("rule_id", .str id), ("variable", .str "status"), ("operator", .str o.name),
    ("value", .str s), ("clause_reference", .str "c"), ("confidence", .float Number.one)]

/-- The payload of a policy of two comparisons of a status with texts. -/
def rivalsPayload (o : Operator) (s : String) (q : Operator) (t : String) : Json :=
  .obj [("rules", .arr [statusPayload "a" o s, statusPayload "b" q t]),
    ("documents", .arr [.obj [("policy_id", .str "p"),
      ("clauses", .arr [.obj [("clause_id", .str "c")]])]])]

theorem exists_rivals {o q : Operator} {s t : String}
    (hpayload : RuleSet.ofPayload (rivalsPayload o s q t) = .ok (rivals o s q t))
    (hs : (rivals o s q t).fault? .standard = none)
    (hplan : (rivals o s q t).checkedPlan = .ok (rivalsPlan o s q t))
    (hfault : fault? ((rivalsPlan o s q t).nodes .standard) (rivalsPlan o s q t).edges = none) :
    ∃ g, (RuleSet.compile .standard (rivalsPayload o s q t)).outcome = .ok g ∧
      g.IsDrawnFrom .standard (rivalsPlan o s q t) ∧ g.IsInternal "p" := by
  obtain ⟨g, hvalid, hbuild, h⟩ := exists_build hs hplan hfault
  exact ⟨g, (outcome_compile hpayload hvalid).trans hbuild, h,
    h.isInternal_iff.mpr List.mem_cons_self⟩

/-- A policy of two comparisons of which no text meets both is refused. -/
theorem IsDrawnFrom.exists_refusal {o q : Operator} {s t : String}
    (h : g.IsDrawnFrom .standard (rivalsPlan o s q t))
    (hscenes : (rivalsPlan o s q t).scenesOf "p" =
      [⟨⟨statusHead "a" o s, true⟩, [⟨statusHead "b" q t, true⟩], ["a"]⟩,
        ⟨⟨statusHead "b" q t, true⟩, [⟨statusHead "a" o s, true⟩], ["b"]⟩])
    (hno : Constraint.jointly ⟨"status", o, .text s⟩ ⟨"status", q, .text t⟩ = some false) :
    ∃ f, g.precheck (.str "p") = .error f := by
  rcases h.precheck_cases (d := { policy := "p", clauses := [{ id := "c" }] }) List.mem_cons_self
    with ⟨-, hall⟩ | ⟨_, _, _, _, _, _, _, _, _, _, _, herror⟩
  · rw [hscenes] at hall
    exact absurd ⟨_, _, rfl, rfl, hno⟩ (hall _ List.mem_cons_self _ List.mem_cons_self)
  · exact ⟨_, herror⟩

/-- A policy that asks for a status and for any other one is refused, and no status meets both. -/
theorem satisfiedBy_of_precheck_rivals : ∃ g f,
    (RuleSet.compile .standard (rivalsPayload .eq "a" .neq "a")).outcome = .ok g ∧
      g.precheck (.str "p") = .error f ∧ ∃ k l : Constraint, g.Refuses "p" f k l ∧
        ∀ given : String, ¬ (k.satisfiedBy (.str given) = .answer true ∧
          l.satisfiedBy (.str given) = .answer true) := by
  obtain ⟨g, hg, h, hp⟩ : ∃ g, (RuleSet.compile .standard
      (rivalsPayload .eq "a" .neq "a")).outcome = .ok g ∧ g.IsDrawnFrom .standard
        (rivalsPlan .eq "a" .neq "a") ∧ g.IsInternal "p" :=
    exists_rivals rfl (by decide +kernel) rfl (by decide +kernel)
  obtain ⟨f, hf⟩ := h.exists_refusal rfl rfl
  obtain ⟨k, l, hrefuses, hgiven⟩ := satisfiedBy_of_precheck hg hp hf
  refine ⟨g, f, hg, hf, k, l, hrefuses, fun given hboth => ?_⟩
  obtain ⟨⟨items, hitems⟩, -⟩ := hgiven (.str given) (fun _ hn => nomatch hn) hboth.1 hboth.2
  cases hitems

/-- A list of two texts is accepted by two comparisons because of which a policy is refused. -/
theorem not_forall_satisfiedBy_of_precheck : ¬ ∀ (cfg : Settings) (payload : Json)
    (g : PolicyGraph) (policy : String) (f : Fault),
      (RuleSet.compile cfg payload).outcome = .ok g → g.IsInternal policy →
      g.precheck (.str policy) = .error f →
      ∃ k l : Constraint, g.Refuses policy f k l ∧ ∀ given : Json,
        ¬ (k.satisfiedBy given = .answer true ∧ l.satisfiedBy given = .answer true) := by
  intro hall
  obtain ⟨g, hg, h, hp⟩ : ∃ g, (RuleSet.compile .standard
      (rivalsPayload .eq "a" .eq "b")).outcome = .ok g ∧ g.IsDrawnFrom .standard
        (rivalsPlan .eq "a" .eq "b") ∧ g.IsInternal "p" :=
    exists_rivals rfl (by decide +kernel) rfl (by decide +kernel)
  obtain ⟨f, hf⟩ := h.exists_refusal rfl rfl
  obtain ⟨k, l, ⟨ps, hps, x, hx, o, ho, a, b, hab, hk, hl, -⟩, hno⟩ := hall _ _ g "p" f hg hp hf
  -- both literals of the refusal are among the two comparisons
  have hpaths := h.hasTreesOf.paths_eq (d := { policy := "p", clauses := [{ id := "c" }] })
    List.mem_cons_self
  obtain rfl := Except.ok.inj (hps.symm.trans hpaths)
  have hliteral : ∀ y : Literal, y = x.leaf ∨ y = o → ∀ j : Constraint,
      y.condition = .ok (.ofConstraint j) →
        j.satisfiedBy (Json.strs ["a", "b"]) = .answer true := by
    have hscenes : (rivalsPlan .eq "a" .eq "b").scenesOf "p" =
        [⟨⟨statusHead "a" .eq "a", true⟩, [⟨statusHead "b" .eq "b", true⟩], ["a"]⟩,
          ⟨⟨statusHead "b" .eq "b", true⟩, [⟨statusHead "a" .eq "a", true⟩], ["b"]⟩] := rfl
    rw [hscenes] at hx
    intro y hy j hj
    have hy : y = (⟨statusHead "a" .eq "a", true⟩ : Commitment).literal .standard "p" ∨
        y = (⟨statusHead "b" .eq "b", true⟩ : Commitment).literal .standard "p" := by
      rcases List.mem_pair.mp hx with rfl | rfl <;> rcases hy with rfl | rfl
      · exact .inl rfl
      · exact .inr (List.mem_singleton.mp ho)
      · exact .inr rfl
      · exact .inl (List.mem_singleton.mp ho)
    have hof : ∀ id s, y = (⟨statusHead id .eq s, true⟩ : Commitment).literal .standard "p" →
        j = ⟨"status", .eq, .text s⟩ := by
      rintro id s rfl
      have hsame := Except.ok.inj (hj.symm.trans (Commitment.condition_literal _ _ rfl))
      exact Condition.ofConstraint_inj hsame
    rcases hy with hy | hy
    · rw [hof "a" "a" hy]
      rfl
    · rw [hof "b" "b" hy]
      rfl
  refine hno (Json.strs ["a", "b"]) ⟨hliteral a ?_ k hk, hliteral b ?_ l hl⟩
  · rcases hab with ⟨rfl, rfl⟩ | ⟨rfl, rfl⟩ <;> simp
  · rcases hab with ⟨rfl, rfl⟩ | ⟨rfl, rfl⟩ <;> simp

end Rivals

end PolicyGraph

end Eligibility
