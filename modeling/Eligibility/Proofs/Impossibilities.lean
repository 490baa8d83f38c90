import Eligibility.Proofs.Complements
import Eligibility.Proofs.Exclusions
import Eligibility.Proofs.Identifiers
import Eligibility.Proofs.ReadRules
import Eligibility.Proofs.TableSearches
import Eligibility.Proofs.Tenets
/-!
# Impossibilities are reported

**Given values.**  A constraint implies another one in the ordinary sense, and the program checks
what is given in its own: an integer is compared as the double nearest to it, and by inequality
as it is.  Where all operands are doubles the two agree: an integer that no double equals is
different from every operand, and elsewhere stands for its double.

**Search.**  A candidate of the search is about two literals on one path, on different conditions,
that imply the two sides of an entry of the table.  The evidence of the conflict cites their rules.

**Results.**
* `satisfiedBy_of_implies`: what makes a comparison take its truth value satisfies all that the
  literal implies.
* `mem_impossibilityTrace_iff`: the candidates of the search.
* `areExcluded_iff_reported`: which impossibilities are reported, and what they mean for inputs.
-/

namespace Eligibility

/-- Whether an input is a finite scalar of a domain. -/
def ValueKind.admitsFinite : ValueKind → Json → Bool
  | numeric, .int _ => true
  | numeric, .float y => y.isFinite
  | boolean, .bool _ => true
  | string, .str _ => true
  | _, _ => false

namespace Constraint

variable {c k e : Constraint} {given : Json} {v : Scalar} {b : Bool} {n : Int}

/-- Whether a rule can state a constraint: its operator fits its operand, and a number that it
compares with is a finite double. -/
structure IsConforming (c : Constraint) : Prop extends c.IsOrdinary where
  double : ∀ x, c.value = .number x → x.IsDouble

/-- What a constraint says where it is to hold or to fail. -/
def turned? (c : Constraint) (positive : Bool) : Option Constraint :=
  if positive then some c else c.negated?

section Turned

/-- What is said by turning an ordinary constraint is met by the values for which the constraint has
the given truth value. -/
theorem meets_of_turned (hc : c.IsOrdinary) (he : c.turned? b = some e) (hv : v.kind = c.domain) :
    e.Meets v ↔ (b = true ↔ c.Meets v) := by
  cases b with
  | true =>
      obtain rfl := Option.some.inj he
      simp
  | false =>
      rw [meets_negated hc he hv]
      simp

theorem IsOrdinary.exists_turned (hc : c.IsOrdinary) (positive : Bool) :
    ∃ e, c.turned? positive = some e ∧ e.IsOrdinary ∧ e.subject = c.subject ∧
      e.value = c.value := by
  cases positive with
  | true => exact ⟨c, rfl, hc, rfl, rfl⟩
  | false =>
      obtain ⟨d, hd, hordinary, hsubject, -⟩ := hc.exists_negated
      obtain ⟨o, -, rfl⟩ := Option.map_eq_some_iff.mp hd
      exact ⟨_, hd, hordinary, hsubject, rfl⟩

theorem comparable_of_implies (h : e.implies k = some true) :
    e.subject = k.subject ∧ e.domain = k.domain := by
  by_contra hno
  have hcomparable : comparable e k = false := by
    rw [← Bool.not_eq_true]
    simpa [comparable] using hno
  simp [implies, hcomparable] at h

end Turned

section Given

/-- An integer that a double equals is given exactly. -/
theorem scalar?_of_sameInt {x : Number} (hx : x.IsDouble) (h : x.sameInt n = true) :
    (Json.int n).scalar? = some (.number n) := by
  have hvalue : x.value? = some (n : Rat) := by
    unfold Number.sameInt at h
    split at h
    · next q hq => rw [hq, of_decide_eq_true h]
    · cases h
  have hround : Number.ofRat n = .finite n := by
    cases x with
    | finite q =>
        cases hvalue
        exact hx
    | negZero =>
        obtain hzero : (0 : Rat) = n := Option.some.inj hvalue
        rw [← hzero]
        decide +kernel
    | _ => cases hvalue
  simp [Json.scalar?, Number.ofInt?, hround, Number.sameInt, Number.value?]

/-- A finite scalar of a domain is a value of it, or an integer that no double equals. -/
theorem scalar?_of_admitsFinite {d : ValueKind} (h : d.admitsFinite given = true) :
    (∃ v, given.scalar? = some v) ∨ ∃ n, given = .int n ∧ given.scalar? = none := by
  cases given with
  | int n =>
      cases hv : (Json.int n).scalar? with
      | none => exact .inr ⟨n, rfl, rfl⟩
      | some v => exact .inl ⟨v, rfl⟩
  | float y =>
      obtain ⟨q, hq⟩ : ∃ q, y.value? = some q := by
        cases d <;> simp_all [ValueKind.admitsFinite, Number.isFinite, Option.isSome_iff_exists]
      exact .inl ⟨.number q, by simp [Json.scalar?, hq]⟩
  | bool f => exact .inl ⟨_, rfl⟩
  | str s => exact .inl ⟨_, rfl⟩
  | _ => cases d <;> cases h

/-- Only comparisons with numbers admit integers. -/
theorem exists_number_of_admitsFinite (h : c.domain.admitsFinite (.int n) = true) :
    ∃ x, c.value = .number x := by
  obtain ⟨s, o, w⟩ := c
  cases w with
  | number x => exact ⟨x, rfl⟩
  | _ => cases h

theorem satisfiedBy_ne_mismatch (h : c.domain.admitsFinite given = true) (m : Mismatch) :
    c.satisfiedBy given ≠ .mismatch m := by
  obtain ⟨s, o, w⟩ := c
  cases w with
  | number x =>
      cases given with
      | int n =>
          simp only [satisfiedBy, checkNumeric, checkInt]
          split_ifs
          · simp
          · cases intervalOf o x <;> cases Number.ofInt? n <;> simp
      | float y =>
          simp only [satisfiedBy, checkNumeric, checkNumber]
          split_ifs
          · simp
          · cases intervalOf o x <;> simp
      | _ => cases h
  | flag f => cases given <;> simp_all [domain, Operand.kind, ValueKind.domain, satisfiedBy,
      checkFlag, ValueKind.admitsFinite]
  | text t => cases given <;> simp_all [domain, Operand.kind, ValueKind.domain, satisfiedBy,
      checkText, ValueKind.admitsFinite]
  | texts ts => cases given <;> simp_all [domain, Operand.kind, ValueKind.domain, satisfiedBy,
      checkText, ValueKind.admitsFinite]

/-- A value that makes a constraint take a truth value satisfies all that the constraint, turned
that way, implies. -/
theorem satisfiedBy_of_implies_of_scalar (hc : c.IsOrdinary) (hk : k.IsOrdinary)
    (he : c.turned? b = some e) (himplies : e.implies k = some true)
    (hv : given.scalar? = some v) (h : c.satisfiedBy given = .answer b) :
    k.satisfiedBy given = .answer true := by
  have hkind := kind_eq_of_satisfiedBy hv h
  obtain ⟨r, hr, hiff⟩ := exists_satisfiedBy hc hv hkind
  obtain rfl : r = b := Check.answer.inj (hr.symm.trans h)
  have hmeets : e.Meets v := (meets_of_turned hc he hkind).mpr hiff
  obtain ⟨_, he', hordinary, -⟩ := hc.exists_turned r
  obtain rfl := Option.some.inj (he.symm.trans he')
  obtain ⟨hsubject, hdomain⟩ := comparable_of_implies himplies
  exact (satisfiedBy_iff hk hv).mpr
    ((implies_iff hordinary hk hsubject hdomain).mp himplies v hmeets)

end Given

section Integers

/-- An integer that no double equals is different from every operand. -/
theorem satisfiedBy_of_neq (hk : k.IsConforming) {x : Number} (hx : k.value = .number x)
    (hne : k.operator = .neq) (hnone : (Json.int n).scalar? = none) :
    k.satisfiedBy (.int n) = .answer true := by
  have hother : x.sameInt n = false := by
    rw [← Bool.not_eq_true]
    intro hsame
    rw [scalar?_of_sameInt (hk.double x hx) hsame] at hnone
    cases hnone
  simp [satisfiedBy, hx, checkNumeric, checkInt, hne, hother]

/-- What is implied by a difference from a number is one. -/
theorem operator_of_implies {x : Number} (hx : e.value = .number x) (hne : e.operator = .neq)
    (h : e.implies k = some true) : k.operator = .neq := by
  obtain ⟨s, o, w⟩ := e
  obtain ⟨t, p, u⟩ := k
  obtain rfl : w = .number x := hx
  obtain rfl : o = .neq := hne
  obtain ⟨rfl, hdomain⟩ := comparable_of_implies h
  cases u with
  | number y =>
      by_contra hp
      simp [implies, comparable, domain, numbersImply, hp] at h
  | _ => cases hdomain

/-- An integer that no double equals makes a comparison take a truth value like the double nearest
to it, unless the comparison, turned that way, is a difference. -/
theorem exists_nearest (hc : c.IsConforming) {x : Number} (hx : c.value = .number x)
    (he : c.turned? b = some e) (hnone : (Json.int n).scalar? = none)
    (h : c.satisfiedBy (.int n) = .answer b) :
    e.operator = .neq ∨ ∃ y q, Number.ofInt? n = some y ∧ y.value? = some q ∧
      c.satisfiedBy (.float y) = .answer b := by
  have hcheck : checkInt c.operator x n = .answer b := by
    simpa [satisfiedBy, checkNumeric, hx] using h
  by_cases hne : c.operator = .neq
  · left
    cases b with
    | true =>
        obtain rfl := Option.some.inj he
        exact hne
    | false =>
        rw [satisfiedBy_of_neq hc hx hne hnone] at h
        cases h
  · right
    obtain ⟨y, hy, hnumber⟩ := exists_ofInt?_of_checkInt hne hcheck
    obtain ⟨q, hq⟩ := isFinite_of_ofInt? hy
    exact ⟨y, q, hy, hq, by simpa [satisfiedBy, checkNumeric, hx] using hnumber⟩

/-- A finite scalar that makes a constraint take a truth value satisfies all that the constraint,
turned that way, implies. -/
theorem satisfiedBy_of_implies (hc : c.IsConforming) (hk : k.IsConforming)
    (he : c.turned? b = some e) (himplies : e.implies k = some true)
    (hgiven : c.domain.admitsFinite given = true) (h : c.satisfiedBy given = .answer b) :
    k.satisfiedBy given = .answer true := by
  rcases scalar?_of_admitsFinite hgiven with ⟨v, hv⟩ | ⟨n, rfl, hnone⟩
  · exact satisfiedBy_of_implies_of_scalar hc.toIsOrdinary hk.toIsOrdinary he himplies hv h
  obtain ⟨_, he', -, -, hvalue⟩ := hc.exists_turned b
  obtain rfl := Option.some.inj (he.symm.trans he')
  obtain ⟨-, hdomain⟩ := comparable_of_implies himplies
  obtain ⟨x, hx⟩ := exists_number_of_admitsFinite hgiven
  obtain ⟨z, hz⟩ : ∃ z, k.value = .number z := by
    refine exists_number_of_admitsFinite (n := n) ?_
    rwa [← hdomain, domain, hvalue]
  by_cases hne : k.operator = .neq
  · exact satisfiedBy_of_neq hk hz hne hnone
  rcases exists_nearest hc hx he hnone h with hop | ⟨y, q, hy, hq, hnearest⟩
  · exact absurd (operator_of_implies (hvalue.trans hx) hop himplies) hne
  · have hfloat := satisfiedBy_of_implies_of_scalar hc.toIsOrdinary hk.toIsOrdinary he himplies
      (v := .number q) (by simp [Json.scalar?, hq]) hnearest
    simp only [satisfiedBy, hz, checkNumeric] at hfloat ⊢
    exact (checkInt_eq_checkNumber hne hy).trans hfloat

end Integers

end Constraint

namespace Condition

/-- The question whether one constraint implies another one, put to their conditions. -/
theorem implies_ofConstraint (k l : Constraint) :
    implies (ofConstraint k) (ofConstraint l) = answer (k.implies l) := by
  obtain ⟨s, o, v⟩ := k
  obtain ⟨t, q, w⟩ := l
  unfold implies
  by_cases hst : s = t
  · subst hst
    simp [ofConstraint, constraint, Constraint.implies, Constraint.comparable, Constraint.domain,
      Constraint.textRange?]
  · simp [ofConstraint, Constraint.implies, Constraint.comparable, hst, answer]

end Condition

/-- A comparison that has a truth value is checked so against what is given for its variable. -/
theorem Head.IsSound.satisfiedBy_of_meaning {inputs : Inputs} {u : Json} {h : Head} {n : Nat}
    (hs : h.IsSound n) {w : Operand} (hw : h.value = some w)
    (hgiven : inputs.lookup h.subject = some u) (hadmits : w.kind.domain.admitsFinite u = true)
    {o : Outcome} (ho : h.meaning inputs = some o) {positive : Bool}
    (hvalue : o.value = some positive) :
    (Constraint.mk h.subject h.operator w).satisfiedBy u = .answer positive := by
  obtain ⟨x, hx, -⟩ := hs.confidence
  simp only [Head.meaning, hw, hx, hgiven] at ho
  cases hcheck : (Constraint.mk h.subject h.operator w).satisfiedBy u with
  | answer holds =>
      rw [hcheck] at ho
      cases ho
      rw [Option.some.inj hvalue]
  | mismatch e => exact absurd hcheck (Constraint.satisfiedBy_ne_mismatch (by exact hadmits) e)
  | _ =>
      rw [hcheck] at ho
      cases ho

/-- Whether the constraints of an entry can be stated in rules. -/
structure Impossibility.IsConforming (i : Impossibility) : Prop where
  first : i.first.IsConforming
  second : i.second.IsConforming

namespace Impossibility

theorem isConforming_flagged (subject : String) (b : Bool) :
    (flagged subject b).IsConforming where
  comparison := rfl
  fits := rfl
  finite := by rintro x ⟨⟩
  double := by rintro x ⟨⟩

theorem isConforming_compared (subject : String) {o : Operator} {n : Nat}
    (ho : o.isOrdering = true) (hn : (Number.finite n).IsDouble) :
    (compared subject o n).IsConforming where
  comparison := by cases o <;> cases ho <;> rfl
  fits := by cases o <;> cases ho <;> rfl
  finite := by rintro x ⟨⟩; rfl
  double := by rintro x ⟨⟩; exact hn

/-- The entries that are used unless others are given can be stated in rules. -/
theorem standard_conforms : ∀ i ∈ standard, i.IsConforming := by
  intro i hi
  simp only [standard, List.mem_cons, List.not_mem_nil, or_false] at hi
  rcases hi with rfl | rfl | rfl | rfl | rfl | rfl | rfl | rfl | rfl | rfl <;> constructor <;>
    first
    | exact isConforming_flagged _ _
    | exact isConforming_compared _ rfl (by decide +kernel)

end Impossibility

/-- Whether inputs give the variable of a literal a finite scalar of the domain of its operand. -/
def Literal.IsGiven (l : Literal) (inputs : Inputs) (given : Json) : Prop :=
  ∃ s v, l.subject = .str s ∧ l.node.value? = some v ∧ inputs.lookup s = some given ∧
    v.kind.domain.admitsFinite given = true

/-- Whether a conflict is an impossibility between the conditions of two rules. -/
def Conflict.IsImpossibilityOf (x : Conflict) (a b : String) : Prop :=
  x.kind = .impossibility ∧
    x.id = identify .impossibility [Node.conditionKey a, Node.conditionKey b] ∧
    x.citedRules.Perm [.str a, .str b]

/-- Whether a candidate names the conditions of two rules and cites the rules. -/
def Candidate.Cites (c : Candidate) (a b : String) : Prop :=
  c.nodes = [.str (Node.conditionKey a), .str (Node.conditionKey b)] ∧
    Conflict.rulesOf c.evidence = [.str a, .str b]

namespace PolicyGraph

variable {cfg : Settings} {g : PolicyGraph} {p : Plan} {table : List Impossibility}
variable {i : Impossibility} {a b : String} {l m : Literal}

/-- Whether literals on the conditions of two rules stand together on one path of a declared policy
and imply the two sides of an entry. -/
structure AreExcluded (g : PolicyGraph) (i : Impossibility) (a : String) (l : Literal) (b : String)
    (m : Literal) : Prop where
  together : ∃ policy ∈ g.policyIds false, ∃ ps, g.paths policy = .ok ps ∧
    ∃ p ∈ ps, l ∈ p.literals ∧ m ∈ p.literals
  left : l.node.id = .str (Node.conditionKey a)
  right : m.node.id = .str (Node.conditionKey b)
  distinct : a ≠ b
  first : Implies l i.first
  second : Implies m i.second

section Search

theorem AreExcluded.exists_site (h : g.AreExcluded i a l b m) :
    ∃ t ∈ g.sites, l ∈ t.path.literals ∧ m ∈ t.path.literals := by
  obtain ⟨policy, hpolicy, ps, hps, p, hp, hlm⟩ := h.together
  exact ⟨⟨policy, p⟩, mem_sites.mpr ⟨hpolicy, ps, hps, hp⟩, hlm⟩

/-- The rule of a literal and the node of its condition tell each other. -/
theorem IsLegible.exists_rule (hg : g.IsLegible) (hl : l.IsOn g) :
    ∃ s, l.rule = .str s ∧ l.node.id = .str (Node.conditionKey s) := by
  obtain ⟨cfg, policy, h, -, -, hnode⟩ := hg.isComparison hl
  exact ⟨h.id, by rw [Literal.rule, hnode, Plan.conditionNode_rule], by rw [hnode]; rfl⟩

theorem IsLegible.rule_eq (hg : g.IsLegible) (hl : l.IsOn g)
    (hid : l.node.id = .str (Node.conditionKey a)) : l.rule = .str a := by
  obtain ⟨s, hs, hnode⟩ := hg.exists_rule hl
  rw [hs, Node.conditionKey_inj.mp (Json.str.inj (hnode.symm.trans hid))]

theorem mem_impossibilitiesOf {policy : Name} {j : Nat} {c : Candidate} :
    c ∈ impossibilitiesOf policy i j (l, m) ↔
      l.node.id.same m.node.id = false ∧ impossibilityCandidate policy i l m = .ok c := by
  have hempty : TableSearch.hasSeen {} j l.node.id m.node.id = false := rfl
  rw [impossibilitiesOf, impossibilityPair]
  dsimp only
  rw [hempty, Bool.or_false]
  cases l.node.id.same m.node.id with
  | true => simp [given, pure, Except.pure]
  | false =>
      cases impossibilityCandidate policy i l m with
      | error f => simp [given]
      | ok d => simp [given, eq_comm]

/-- A candidate of the search cites the rules of its literals. -/
theorem IsLegible.cites_of_candidate (hg : g.IsLegible) (hl : l.IsOn g) (hm : m.IsOn g)
    (hleft : l.node.id = .str (Node.conditionKey a))
    (hright : m.node.id = .str (Node.conditionKey b)) {policy : Name} {c : Candidate}
    (hc : impossibilityCandidate policy i l m = .ok c) : c.Cites a b := by
  obtain ⟨first, -, hc⟩ := Attempt.bind_eq_ok.mp hc
  obtain ⟨second, -, hc⟩ := Attempt.bind_eq_ok.mp hc
  obtain ⟨e, he, hc⟩ := Attempt.bind_eq_ok.mp hc
  obtain ⟨f, hf, hc⟩ := Attempt.bind_eq_ok.mp hc
  obtain ⟨s, -, rfl⟩ := Attempt.map_eq_ok.mp he
  obtain ⟨t, -, rfl⟩ := Attempt.map_eq_ok.mp hf
  cases hc
  refine ⟨by rw [hleft, hright], ?_⟩
  rw [← hg.rule_eq hl hleft, ← hg.rule_eq hm hright]
  rfl

/-- A candidate of the search is about literals that an entry of the table excludes. -/
theorem IsLegible.exists_areExcluded (hg : g.IsLegible) (htable : ∀ i ∈ table, i.IsFitting)
    {c : Candidate} (hc : c ∈ g.impossibilityTrace table) :
    ∃ i ∈ table, ∃ a l b m, g.AreExcluded i a l b m ∧ c.Cites a b := by
  obtain ⟨t, ht, e, he, hc⟩ := mem_impossibilityTrace.mp hc
  have hi := List.fst_mem_of_mem_zipIdx he
  obtain ⟨l, m, ⟨hl, hfirst⟩, ⟨hm, hsecond⟩, hc⟩ :=
    (hg.mem_impossibilitiesAt ht (htable _ hi)).mp hc
  obtain ⟨hne, hc⟩ := mem_impossibilitiesOf.mp hc
  have hlOn := isOn_of_mem_sites ht l hl
  have hmOn := isOn_of_mem_sites ht m hm
  obtain ⟨a, -, ha⟩ := hg.exists_rule hlOn
  obtain ⟨b, -, hb⟩ := hg.exists_rule hmOn
  obtain ⟨hpolicy, ps, hps, hp⟩ := mem_sites.mp ht
  refine ⟨e.1, hi, a, l, b, m,
    ⟨⟨_, hpolicy, ps, hps, _, hp, hl, hm⟩, ha, hb, ?_, hfirst, hsecond⟩,
    hg.cites_of_candidate hlOn hmOn ha hb hc⟩
  rintro rfl
  simp [ha, hb] at hne

/-- Literals that an entry of the table excludes have a candidate. -/
theorem IsLegible.exists_candidate_of_areExcluded (hg : g.IsLegible)
    (htable : ∀ i ∈ table, i.IsFitting) (hi : i ∈ table) (h : g.AreExcluded i a l b m) :
    ∃ c ∈ g.impossibilityTrace table, c.Cites a b := by
  obtain ⟨t, ht, hl, hm⟩ := h.exists_site
  obtain ⟨j, hj⟩ := List.mem_iff_getElem?.mp hi
  have he : (i, j) ∈ table.zipIdx := List.mem_zipIdx_iff_getElem?.mpr hj
  have hlOn := isOn_of_mem_sites ht l hl
  have hmOn := isOn_of_mem_sites ht m hm
  obtain ⟨first, hfirst⟩ := (hg.isComparison hlOn).exists_describe
  obtain ⟨second, hsecond⟩ := (hg.isComparison hmOn).exists_describe
  obtain ⟨e, he1⟩ := (hg.isComparison hlOn).exists_evidence
  obtain ⟨f, hf⟩ := (hg.isComparison hmOn).exists_evidence
  obtain ⟨c, hc⟩ : ∃ c, impossibilityCandidate t.policy i l m = .ok c := by
    simp only [impossibilityCandidate, hfirst, hsecond, he1, hf, Attempt.ok_bind]
    exact ⟨_, rfl⟩
  refine ⟨c, mem_impossibilityTrace.mpr ⟨t, ht, (i, j), he, ?_⟩,
    hg.cites_of_candidate hlOn hmOn h.left h.right hc⟩
  refine (hg.mem_impossibilitiesAt ht (htable i hi)).mpr
    ⟨l, m, ⟨hl, h.first⟩, ⟨hm, h.second⟩, mem_impossibilitiesOf.mpr ⟨?_, hc⟩⟩
  rw [h.left, h.right]
  simpa [Node.conditionKey_inj] using h.distinct

end Search

section Inputs

variable {inputs : Inputs} {u : Json} {k : Constraint}

/-- The graph of a payload of doubles is drawn from a plan of rules with doubles. -/
theorem exists_doubles_of_compile {payload : Json} (hpayload : payload.HasDoubles)
    (hg : (RuleSet.compile cfg payload).outcome = .ok g) :
    ∃ p, g.IsDrawnFrom cfg p ∧ ∀ q ∈ p.placed, q.2.head.HasDoubles := by
  obtain ⟨s, hs, hvalid, hbuild⟩ := exists_of_compile hg
  obtain ⟨p, hp, h⟩ := isDrawnFrom_of_build hvalid hbuild
  have hperm := RuleSet.placed_perm (RuleSet.isAccepted_of_validate hvalid).1
    (RuleSet.checkedPlan_spec hp).1
  exact ⟨p, h, fun q hq => RuleSet.hasDoubles_of_ofPayload hs hpayload
    (hperm.mem_iff.mp (List.mem_map_of_mem hq))⟩

/-- Where a literal is kept, a finite scalar that is given for its variable satisfies what the
literal implies. -/
theorem IsDrawnFrom.satisfiedBy_of_keeps (h : g.IsDrawnFrom cfg p)
    (hdoubles : ∀ q ∈ p.placed, q.2.head.HasDoubles) (hl : l.IsOn g) (hk : k.IsConforming)
    (himplies : Implies l k) (hkept : g.Keeps inputs l) (hgiven : l.IsGiven inputs u) :
    k.satisfiedBy u = .answer true := by
  obtain ⟨node, positive⟩ := l
  obtain ⟨⟨policy, ⟨head, cs⟩⟩, hq, hcomparison, rfl⟩ := (h.mem_leaves hl.leaf).mp hl.node
  have hcomparison : head.operator.isLogical = false := hcomparison
  have hsound : head.IsSound cs.length := h.sound.rules _ hq
  obtain ⟨-, w, hw, -, -⟩ := hsound.comparison hcomparison
  have hconforming : (Constraint.mk head.subject head.operator w).IsConforming :=
    { hsound.isOrdinary hcomparison hw with
      double := fun x hx => (hdoubles _ hq).value x (hw.trans (congrArg some hx)) }
  obtain ⟨s, w', hs, hw', hlookup, hadmits⟩ := hgiven
  obtain rfl : head.subject = s := by simpa [Literal.subject] using hs
  obtain rfl : w = w' := by simpa [hw] using hw'
  obtain ⟨o, ho, hvalue⟩ := (h.hasValue_iff hq).mp hkept.2
  rw [Rule.meaning_of_comparison hcomparison] at ho
  have hcheck := hsound.satisfiedBy_of_meaning hw hlookup hadmits ho hvalue
  obtain ⟨e, he, -⟩ := hconforming.exists_turned positive
  have hsays : (Literal.mk (Plan.conditionNode cfg policy head) positive).condition =
      .ok (.ofConstraint e) := by
    refine Commitment.condition_literal (a := ⟨head, positive⟩) cfg policy ?_
    rw [← he, Commitment.constraint?]
    cases positive <;> simp [hw, Constraint.turned?, Constraint.negated?]
  refine Constraint.satisfiedBy_of_implies hconforming hk he ?_ hadmits hcheck
  have himplies : Implies ⟨Plan.conditionNode cfg policy head, positive⟩ k := himplies
  rw [Implies, hsays, Attempt.ok_bind, Condition.implies_ofConstraint] at himplies
  cases hanswer : e.implies k with
  | none => simp [hanswer, Condition.answer] at himplies
  | some r => simpa [hanswer, Condition.answer] using himplies

end Inputs

section Agreement

variable {ks : List ConflictKind} {r : ConflictReport}

/-- An impossibility that is reported is of conditions that an entry of the table excludes. -/
theorem IsReportOf.exists_areExcluded (hr : g.IsReportOf table ks r) (hg : g.IsLegible)
    (hsound : ∀ k ∈ ks, g.PassIsSound table k) (htable : ∀ i ∈ table, i.IsFitting) {x : Conflict}
    (hx : x ∈ r.conflicts) (hkind : x.kind = .impossibility) :
    ∃ i ∈ table, ∃ a l b m, g.AreExcluded i a l b m ∧ x.citedRules = [.str a, .str b] ∧
      x.id = Conflict.identify .impossibility [Node.conditionKey a, Node.conditionKey b] := by
  obtain ⟨k, hk, c, hgives, hreceives⟩ := hr.sound x hx
  have hcsound := (hsound k hk).isSound hgives
  obtain ⟨xs, hxs, hid⟩ := exists_identify hgives hreceives
  obtain ⟨y, hy, -, hyields⟩ := hcsound.exists_conflict
  obtain rfl := Except.ok.inj (hy.symm.trans hreceives.2)
  obtain rfl : .impossibility = k := by rw [← hkind, hyields.kind, hcsound.kind]
  obtain ⟨pairs, found, hfound, hs⟩ := hg.exists_impossibilities_trace htable
  obtain ⟨cs, hcs, hc⟩ := hgives
  obtain rfl := Except.ok.inj (hfound.symm.trans hcs)
  obtain ⟨i, hi, a, l, b, m, hexcluded, hnodes, hrules⟩ :=
    hg.exists_areExcluded htable (hs.subset hc)
  refine ⟨i, hi, a, l, b, m, hexcluded, by rw [Conflict.citedRules, hyields.evidence, hrules], ?_⟩
  rw [hid, Json.strs_inj (hxs.symm.trans hnodes : _ = List.map Json.str [_, _])]

/-- Conditions that an entry of the table excludes are reported. -/
theorem IsReportOf.exists_impossibility (hr : g.IsReportOf table ks r) (hg : g.IsLegible)
    (hsound : ∀ k ∈ ks, g.PassIsSound table k) (htable : ∀ i ∈ table, i.IsFitting)
    (hids : g.HasNoCollisionAmong table ks) (hk : .impossibility ∈ ks) (hi : i ∈ table)
    (h : g.AreExcluded i a l b m) : ∃ x ∈ r.conflicts, x.IsImpossibilityOf a b := by
  obtain ⟨c, hc, hcnodes, -⟩ := hg.exists_candidate_of_areExcluded htable hi h
  obtain ⟨pairs, found, hfound, hs⟩ := hg.exists_impossibilities_trace htable
  obtain ⟨d, hd, hdnodes⟩ := hs.nodes c hc
  have hlone := hs.lone d (hs.subset hd)
  obtain ⟨policy, hpolicy⟩ := hlone.policy
  obtain ⟨d', ⟨cs, hcs, hd'⟩, hnodes, x, hx, hkind, hyields⟩ :=
    hr.exists_conflict hsound hids hk ⟨found, hfound, hd⟩ (hlone.sound.checkScope_of_lone hpolicy)
  obtain rfl := Except.ok.inj (hfound.symm.trans hcs)
  obtain ⟨_, -, u, _, v, _, huv, hd'nodes, hd'rules⟩ := hg.exists_areExcluded htable (hs.subset hd')
  obtain ⟨_, -, u', _, v', _, -, hrules, hid⟩ := hr.exists_areExcluded hg hsound htable hx hkind
  obtain ⟨rfl, rfl⟩ : u' = u ∧ v' = v := by
    rw [Conflict.citedRules, hyields.evidence, hd'rules] at hrules
    simpa [eq_comm] using hrules
  -- both candidates are about the two conditions, in one order or the other
  have hmem : ∀ s, s ∈ [u', v'] ↔ s ∈ [a, b] := by
    intro s
    have hnode := hnodes (.str (Node.conditionKey s))
    rw [hd'nodes, hdnodes, hcnodes] at hnode
    simpa [Node.conditionKey_inj] using hnode
  have hperm : [u', v'].Perm [a, b] :=
    (List.perm_ext_iff_of_nodup (by simpa using huv.distinct) (by simpa using h.distinct)).mpr hmem
  refine ⟨x, hx, hkind, ?_, ?_⟩
  · rw [hid]
    exact Conflict.identify_congr fun s => (hperm.map Node.conditionKey).mem_iff
  · rw [hrules]
    exact hperm.map Json.str

/-- Over the graph of a payload detection with the search for impossibilities gives a report; unless
identifiers collide, it has an impossibility between the conditions of two rules exactly where
literals on the two stand together on one path of a declared policy and imply the two sides of an
entry of the table, in one order or the other.  Whatever finite scalars inputs give for the
variables of two such literals, if both are kept, the scalars satisfy the two sides. -/
theorem areExcluded_iff_reported {payload : Json} {passes : Option (List ConflictKind)}
    (hpayload : payload.HasDoubles) (hg : (RuleSet.compile cfg payload).outcome = .ok g)
    (htable : ∀ i ∈ table, i.IsConforming) (hpasses : .impossibility ∈ selectedPasses passes)
    (hids : g.HasNoCollisionAmong table (selectedPasses passes)) :
    ∃ r, (g.detect table passes none).outcome = .ok r ∧
      (∀ a b, (∃ x ∈ r.conflicts, x.IsImpossibilityOf a b) ↔
        ∃ i ∈ table, ∃ l m, g.AreExcluded i a l b m ∨ g.AreExcluded i b m a l) ∧
      ∀ i ∈ table, ∀ a l b m, g.AreExcluded i a l b m → ∀ inputs u v,
        l.IsGiven inputs u → m.IsGiven inputs v → g.Keeps inputs l → g.Keeps inputs m →
          i.first.satisfiedBy u = .answer true ∧ i.second.satisfiedBy v = .answer true := by
  obtain ⟨p, h, hnamed⟩ := exists_named_plan hg
  have hfits : ∀ i ∈ table, i.IsFitting := fun i hi =>
    ⟨(htable i hi).first.toIsFitting, (htable i hi).second.toIsFitting⟩
  have hsound : ∀ k ∈ selectedPasses passes, g.PassIsSound table k :=
    fun k _ => h.passIsSound hnamed hfits k
  obtain ⟨r, hr, hreport⟩ := h.isLegible.exists_reportOf hsound
  refine ⟨r, hr, fun a b => ⟨?_, ?_⟩, fun i hi a l b m hexcluded inputs u v hu hv hl hm => ?_⟩
  · rintro ⟨x, hx, hkind, -, hrules⟩
    obtain ⟨i, hi, a', l, b', m, hexcluded, hcited, -⟩ :=
      hreport.exists_areExcluded h.isLegible hsound hfits hx hkind
    rw [hcited] at hrules
    rcases eq_or_eq_of_perm_pair hrules with ⟨ha, hb⟩ | ⟨ha, hb⟩
    · rw [Json.str.inj ha, Json.str.inj hb] at hexcluded
      exact ⟨i, hi, l, m, .inl hexcluded⟩
    · rw [Json.str.inj ha, Json.str.inj hb] at hexcluded
      exact ⟨i, hi, m, l, .inr hexcluded⟩
  · rintro ⟨i, hi, l, m, hexcluded | hexcluded⟩
    · exact hreport.exists_impossibility h.isLegible hsound hfits hids hpasses hi hexcluded
    · obtain ⟨x, hx, hkind, hid, hrules⟩ :=
        hreport.exists_impossibility h.isLegible hsound hfits hids hpasses hi hexcluded
      refine ⟨x, hx, hkind, ?_, hrules.trans (.swap _ _ _)⟩
      rw [hid]
      exact Conflict.identify_congr fun s => (List.Perm.swap _ _ _).mem_iff
  · obtain ⟨t, ht, hlt, hmt⟩ := hexcluded.exists_site
    have hon := isOn_of_mem_sites ht
    obtain ⟨q, hq, hdoubles⟩ := exists_doubles_of_compile hpayload hg
    exact ⟨hq.satisfiedBy_of_keeps hdoubles (hon l hlt) (htable i hi).first hexcluded.first hl hu,
      hq.satisfiedBy_of_keeps hdoubles (hon m hmt) (htable i hi).second hexcluded.second hm hv⟩

end Agreement

section Spouses

/-- The head of a comparison that cites a fixed clause. -/
def comparisonHead (id subject : String) (o : Operator) (v : Operand) : Head :=
  { id, subject, operator := o, value := some v, clause := "c", confidence := some Number.one }

/-- Younger than sixteen. -/
def isChild : Head := comparisonHead "a" "age" .lt (.number (.finite 16))

/-- Married. -/
def isSpouse : Head := comparisonHead "b" "is_married" .eq (.flag true)

/-- A policy for those that are married and younger than sixteen. -/
def childSpouse : RuleSet where
  rules := [.node isChild [], .node isSpouse []]
  documents := [{ policy := "p", clauses := [{ id := "c" }] }]

def childSpousePlan : Plan := ⟨childSpouse.documents, childSpouse.rules.map ("p", ·)⟩

/-- The payload of a comparison that cites a fixed clause. -/
def comparisonPayload (id subject : String) (o : Operator) (v : Json) : Json :=
  .obj [("rule_id", .str id), ("variable", .str subject), ("operator", .str o.name), ("value", v),
    ("clause_reference", .str "c"), ("confidence", .float Number.one)]

/-- The payload of a policy for those that are married and younger than sixteen. -/
def childSpousePayload : Json :=
  .obj [("rules", .arr [comparisonPayload "a" "age" .lt (.float (.finite 16)),
      comparisonPayload "b" "is_married" .eq (.bool true)]),
    ("documents", .arr [.obj [("policy_id", .str "p"),
      ("clauses", .arr [.obj [("clause_id", .str "c")]])]])]

/-- The two conditions are excluded by the entry on marriages below sixteen. -/
theorem IsDrawnFrom.areExcluded_childSpouse (h : g.IsDrawnFrom .standard childSpousePlan) :
    ∃ i ∈ Impossibility.standard, g.AreExcluded i
      "a" ((⟨isChild, true⟩ : Commitment).literal .standard "p")
      "b" ((⟨isSpouse, true⟩ : Commitment).literal .standard "p") := by
  have hp : { policy := "p", clauses := [{ id := "c" }] } ∈ childSpousePlan.documents :=
    List.mem_cons_self
  have hscenes : childSpousePlan.scenesOf "p" =
      [⟨⟨isChild, true⟩, [⟨isSpouse, true⟩], ["a"]⟩,
        ⟨⟨isSpouse, true⟩, [⟨isChild, true⟩], ["b"]⟩] := rfl
  have hpaths := h.hasTreesOf.paths_eq hp
  rw [hscenes] at hpaths
  have himplies : ∀ {c : Commitment} {k : Constraint}, c.constraint? = some k →
      k.implies k = some true → Implies (c.literal .standard "p") k := by
    intro c k hc hk
    rw [Implies, Commitment.condition_literal .standard "p" hc, Attempt.ok_bind,
      Condition.implies_ofConstraint, hk]
    rfl
  refine ⟨⟨Impossibility.compared "age" .lt 16, Impossibility.flagged "is_married" true, .medium,
    "Marriage below sixteen is not legally recognised"⟩, by simp [Impossibility.standard],
    ⟨.str "p", h.mem_policyIds.mpr ⟨_, hp, rfl⟩, _, hpaths, _, List.mem_cons_self, ?_, ?_⟩,
    rfl, rfl, by decide, himplies rfl (by decide +kernel), himplies rfl (by decide +kernel)⟩
  · exact List.mem_cons_self
  · exact List.mem_cons_of_mem _ List.mem_cons_self

/-- The candidates of the search are all about the two conditions. -/
theorem IsDrawnFrom.mem_nodes_childSpouse (h : g.IsDrawnFrom .standard childSpousePlan)
    {c : Candidate} (hc : g.Gives Impossibility.standard .impossibility c) (n : Name) :
    n ∈ c.nodes ↔ n ∈ [Json.str (Node.conditionKey "a"), .str (Node.conditionKey "b")] := by
  obtain ⟨pairs, found, hfound, hs⟩ :=
    h.isLegible.exists_impossibilities_trace Impossibility.standard_fits
  obtain ⟨cs, hcs, hc⟩ := hc
  obtain rfl := Except.ok.inj (hfound.symm.trans hcs)
  obtain ⟨i, hi, u, l, v, m, hexcluded, hnodes, -⟩ :=
    h.isLegible.exists_areExcluded Impossibility.standard_fits (hs.subset hc)
  obtain ⟨t, ht, hl, hm⟩ := hexcluded.exists_site
  have hrule : ∀ {l : Literal} {s : String}, l ∈ t.path.literals →
      l.node.id = .str (Node.conditionKey s) → s = "a" ∨ s = "b" := by
    intro l s hl hid
    have hon := isOn_of_mem_sites ht l hl
    obtain ⟨q, hq, -, hnode⟩ := (h.mem_leaves hon.leaf).mp hon.node
    rw [hnode] at hid
    rcases List.mem_pair.mp hq with rfl | rfl
    · exact .inl (Node.conditionKey_inj.mp (Json.str.inj hid)).symm
    · exact .inr (Node.conditionKey_inj.mp (Json.str.inj hid)).symm
  have hne := hexcluded.distinct
  rw [hnodes]
  rcases hrule hl hexcluded.left with rfl | rfl <;>
    rcases hrule hm hexcluded.right with rfl | rfl
  · exact absurd rfl hne
  · rfl
  · exact (List.Perm.swap _ _ _).mem_iff
  · exact absurd rfl hne

theorem IsDrawnFrom.hasNoCollision_childSpouse (h : g.IsDrawnFrom .standard childSpousePlan) :
    g.HasNoCollisionAmong Impossibility.standard (selectedPasses (some [.impossibility])) := by
  have hsound : g.PassIsSound Impossibility.standard .impossibility :=
    h.isLegible.exists_impossibilities Impossibility.standard_fits
  exact hasNoCollisionAmong_singleton fun c hc =>
    ⟨(hsound.isSound hc).kind, h.mem_nodes_childSpouse hc⟩

/-- A policy that asks for marriage below sixteen is reported; a spouse of fifteen keeps both of its
conditions, and is what the entry excludes. -/
theorem areExcluded_iff_reported_childSpouse : ∃ g r,
    (RuleSet.compile .standard childSpousePayload).outcome = .ok g ∧
      (g.detect Impossibility.standard (some [.impossibility]) none).outcome = .ok r ∧
      (∃ x ∈ r.conflicts, x.IsImpossibilityOf "a" "b") ∧
      ∃ i ∈ Impossibility.standard, i.first.satisfiedBy (.int 15) = .answer true ∧
        i.second.satisfiedBy (.bool true) = .answer true := by
  obtain ⟨g, hvalid, hbuild, h⟩ : ∃ g, childSpouse.validate .standard = .ok _ ∧
      (childSpouse.build .standard).outcome = .ok g ∧ g.IsDrawnFrom .standard childSpousePlan :=
    exists_build (by decide +kernel) rfl (by decide +kernel)
  have hg : (RuleSet.compile .standard childSpousePayload).outcome = .ok g :=
    (outcome_compile rfl hvalid).trans hbuild
  obtain ⟨r, hr, hiff, hgiven⟩ := areExcluded_iff_reported (by decide +kernel) hg
    Impossibility.standard_conforms List.mem_cons_self h.hasNoCollision_childSpouse
  obtain ⟨i, hi, hexcluded⟩ := h.areExcluded_childSpouse
  have hp : { policy := "p", clauses := [{ id := "c" }] } ∈ childSpousePlan.documents :=
    List.mem_cons_self
  let fs : Inputs := [("age", .int 15), ("is_married", .bool true)]
  have hkept : ∀ c : Commitment, c.IsPlaced childSpousePlan "p" →
      (c.head.meaning fs).map Outcome.value = some (some c.positive) →
        g.Keeps fs (c.literal .standard "p") := by
    intro c hc hvalue
    obtain ⟨o, ho, hvalue⟩ := Option.map_eq_some_iff.mp hvalue
    exact h.keeps_literal hc ⟨o, ho, hvalue⟩
  refine ⟨g, r, hg, hr, (hiff "a" "b").mpr ⟨i, hi, _, _, .inl hexcluded⟩, i, hi,
    hgiven i hi _ _ _ _ hexcluded fs (.int 15) (.bool true) ?_ ?_ ?_ ?_⟩
  · exact ⟨"age", .number (.finite 16), by simp [Commitment.literal, Literal.subject, isChild,
      comparisonHead], by simp [Commitment.literal, isChild, comparisonHead], rfl, rfl⟩
  · exact ⟨"is_married", .flag true, by simp [Commitment.literal, Literal.subject, isSpouse,
      comparisonHead], by simp [Commitment.literal, isSpouse, comparisonHead], rfl, rfl⟩
  · exact hkept ⟨isChild, true⟩ ⟨.node isChild [], List.mem_cons_self, rfl, rfl⟩
      (by decide +kernel)
  · exact hkept ⟨isSpouse, true⟩ ⟨.node isSpouse [], List.mem_cons_of_mem _ List.mem_cons_self,
      rfl, rfl⟩ (by decide +kernel)

end Spouses

end PolicyGraph
end Eligibility
