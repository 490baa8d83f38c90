import Eligibility.Proofs.ConditionValues
import Eligibility.Proofs.Implications
/-!
# Negations and complements

**Checks.**  A value of the domain of a variable is checked against a comparison with an
answer, and against the complement of the comparison with the opposite one.  Where a
number is not read as it is, this may fail: equality looks at the double nearest to an
integer and inequality at the integer itself, and no interval contains what is not finite.

**Mismatches.**  A value of another kind fails a comparison as well as its complement.  A
negation turns the failure into success, so that it is not the complement there.

**Results.**
* `satisfiedBy_negated`: the check against the complement is the check turned around.
* `readsExactly_of_answers`: the answers are opposite only where the value is read as it is.
* `satisfiedBy_of_readsExactly`: values of the domain are those that are checked with an answer.
* `value_of_complement`: the values of a negation and of the complement.
-/

namespace Eligibility
open Schema

/-- What a check says, turned around; a check without an answer stays as it is. -/
def Check.negate : Check → Check
  | answer holds => answer !holds
  | k => k

/-- Whether an input is of a domain: a list of texts stands for several texts. -/
def ValueKind.admits : ValueKind → Json → Bool
  | numeric, .int _ => true
  | numeric, .float _ => true
  | boolean, .bool _ => true
  | string, .str _ => true
  | string, .arr items => (Constraint.textsOf? items).isSome
  | _, _ => false

theorem Check.negate_eq_answer {k : Check} {b : Bool} :
    k.negate = .answer b ↔ k = .answer !b := by
  cases k <;> simp [negate, Bool.not_eq_eq_eq_not]

theorem Operator.isLogical_of_negated {o p : Operator} (hp : o.negated? = some p) :
    o.isLogical = false ∧ p.isLogical = false := by
  cases o <;> cases hp <;> exact ⟨rfl, rfl⟩

theorem Operator.isOrdering_of_negated {o p : Operator} (hp : o.negated? = some p) :
    p.isOrdering = o.isOrdering := by
  cases o <;> cases hp <;> rfl

namespace Constraint

/-- Whether a constraint and its complement read a number as it is: an integer has a nearest
double, which equality does not tell from the integer, and what is compared by order is finite. -/
def ReadsExactly (c : Constraint) (given : Json) : Prop :=
  ∀ x, c.value = .number x →
    (∀ n, given = .int n → ∃ y, Number.ofInt? n = some y ∧
      (c.operator.isOrdering = false → y.same x = x.sameInt n)) ∧
    ∀ y, given = .float y → c.operator.isOrdering = true → y.isFinite = true

section Checks

variable {c d : Constraint} {s : String} {o p : Operator} {x y : Number} {given : Json}

/-- A scalar of the domain is checked against the complement with the opposite answer. -/
theorem satisfiedBy_negated_of_scalar (hc : c.IsOrdinary) (hd : c.negated? = some d) {v : Scalar}
    (hv : given.scalar? = some v) (hk : v.kind = c.domain) :
    d.satisfiedBy given = (c.satisfiedBy given).negate := by
  obtain ⟨d', hd', hordinary, -, hdomain⟩ := hc.exists_negated
  obtain rfl := Option.some.inj (hd'.symm.trans hd)
  obtain ⟨a, ha, hiff⟩ := exists_satisfiedBy hc hv hk
  obtain ⟨b, hb, hiff'⟩ := exists_satisfiedBy hordinary hv (hk.trans hdomain.symm)
  have hopposite : b = !a := by
    rw [Bool.eq_iff_iff, hiff', meets_negated hc hd hk, ← hiff]
    simp
  rw [ha, hb, hopposite, Check.negate]

/-- An integer that is read as it is is checked like its double. -/
theorem checkInt_of_readsExactly {n : Int} (hy : Number.ofInt? n = some y)
    (hexact : o.isOrdering = false → y.same x = x.sameInt n) :
    checkInt o x n = checkNumber o x y := by
  by_cases hne : o = .neq
  · subst hne
    rw [checkInt, checkNumber, if_pos rfl, if_pos rfl, hexact rfl]
  · exact checkInt_eq_checkNumber hne hy

/-- Numbers are compared by order or by equality. -/
theorem eq_or_neq_of_isOrdering (hc : IsOrdinary ⟨s, o, .number x⟩) (ho : o.isOrdering = false) :
    o = .eq ∨ o = .neq := by
  have hcomparison : o.isLogical = false := hc.comparison
  have hfits : Head.fits o .numeric = true := hc.fits
  cases o <;> simp_all [Operator.isOrdering, Operator.isLogical, Head.fits, Operator.isMembership]

/-- What is not finite is in order with no number. -/
theorem checkNumber_of_not_finite {a : Rat} (ho : o.isOrdering = true) (hx : x.value? = some a)
    (hy : y.value? = none) : checkNumber o x y = .answer false := by
  obtain ⟨i, hi⟩ : ∃ i, intervalOf o x = some i := by cases o <;> cases ho <;> exact ⟨_, rfl⟩
  rw [checkNumber, if_neg (by rintro rfl; cases ho), hi]
  exact congrArg Check.answer (containsPoint_of_not_finite hx hy hi)

/-- What is not finite is not equal to a number, and checked so. -/
theorem checkNumber_negated_of_not_finite {a : Rat} (ho : o = .eq ∨ o = .neq)
    (hp : o.negated? = some p) (hx : x.value? = some a) (hy : y.value? = none) :
    checkNumber p x y = (checkNumber o x y).negate := by
  have hpoint : (Interval.point x).containsPoint y = false :=
    containsPoint_of_not_finite (o := .eq) hx hy rfl
  have hsame : y.same x = false := by
    cases y <;> cases hy <;> cases x <;> cases hx <;> rfl
  rcases ho with rfl | rfl <;> cases hp <;>
    simp [checkNumber, intervalOf, hpoint, hsame, Check.negate]

/-- The check of a double against the complement is the check turned around. -/
theorem checkNumber_negated (hc : IsOrdinary ⟨s, o, .number x⟩) (hp : o.negated? = some p)
    (hfinite : o.isOrdering = true → y.isFinite = true) :
    checkNumber p x y = (checkNumber o x y).negate := by
  obtain ⟨a, ha⟩ := Option.isSome_iff_exists.mp (hc.finite x rfl)
  have hd : negated? ⟨s, o, .number x⟩ = some ⟨s, p, .number x⟩ := by simp [negated?, hp]
  cases hy : y.value? with
  | some q =>
      have hv : (Json.float y).scalar? = some (.number q) := by simp [Json.scalar?, hy]
      exact satisfiedBy_negated_of_scalar hc hd hv rfl
  | none =>
      refine checkNumber_negated_of_not_finite (eq_or_neq_of_isOrdering hc ?_) hp ha hy
      rw [← Bool.not_eq_true]
      exact fun ho => by simpa [Number.isFinite, hy] using hfinite ho

theorem checkText_not (complement : Bool) (named : TextSet) :
    checkText (!complement) named given = (checkText complement named given).negate := by
  cases given with
  | str s => simp [checkText, Check.negate]
  | arr items => cases h : textsOf? items <;> simp [checkText, h, Check.negate]
  | _ => rfl

/-- The check against the complement is the check turned around. -/
theorem satisfiedBy_negated (hc : c.IsOrdinary) (hd : c.negated? = some d)
    (hexact : c.ReadsExactly given) : d.satisfiedBy given = (c.satisfiedBy given).negate := by
  obtain ⟨s, o, w⟩ := c
  obtain ⟨p, hp, rfl⟩ := Option.map_eq_some_iff.mp hd
  cases w with
  | number x =>
      obtain ⟨hint, hfloat⟩ := hexact x rfl
      cases given with
      | int n =>
          obtain ⟨y, hy, hsame⟩ := hint n rfl
          have hfinite : y.isFinite = true := by
            obtain ⟨q, hq⟩ := isFinite_of_ofInt? hy
            simp [Number.isFinite, hq]
          have hsame' : p.isOrdering = false → y.same x = x.sameInt n := by
            rwa [Operator.isOrdering_of_negated hp]
          have hcheck := checkNumber_negated hc hp (y := y) fun _ => hfinite
          rwa [← checkInt_of_readsExactly hy hsame, ← checkInt_of_readsExactly hy hsame'] at hcheck
      | float y => exact checkNumber_negated hc hp (hfloat y rfl)
      | _ => rfl
  | flag b =>
      cases given with
      | bool v => exact satisfiedBy_negated_of_scalar hc hd rfl rfl
      | _ => rfl
  | text t =>
      have hexcludes : excludes p = !excludes o := by
        rcases hc.operator_text with rfl | rfl <;> cases hp <;> rfl
      rw [satisfiedBy, satisfiedBy, hexcludes]
      exact checkText_not _ _
  | texts ts =>
      have hexcludes : excludes p = !excludes o := by
        rcases hc.operator_texts with rfl | rfl <;> cases hp <;> rfl
      rw [satisfiedBy, satisfiedBy, hexcludes]
      exact checkText_not _ _

/-- An integer that is checked for more than inequality has a nearest double. -/
theorem exists_ofInt?_of_checkInt {n : Int} {b : Bool} (hne : o ≠ .neq)
    (h : checkInt o x n = .answer b) :
    ∃ y, Number.ofInt? n = some y ∧ checkNumber o x y = .answer b := by
  cases hy : Number.ofInt? n with
  | some y => exact ⟨y, rfl, (checkInt_eq_checkNumber hne hy).symm.trans h⟩
  | none =>
      rw [checkInt, if_neg hne, hy] at h
      cases hi : intervalOf o x <;> simp [hi] at h

/-- An integer that is checked against the complement with the opposite answer is read as it is. -/
theorem exists_same_of_checkInt {n : Int} {b : Bool} (hc : IsOrdinary ⟨s, o, .number x⟩)
    (hp : o.negated? = some p) (h : checkInt o x n = .answer b)
    (h' : checkInt p x n = .answer !b) :
    ∃ y, Number.ofInt? n = some y ∧ (o.isOrdering = false → y.same x = x.sameInt n) := by
  have hnegated : ∀ y, Number.ofInt? n = some y →
      checkNumber p x y = (checkNumber o x y).negate := fun y hy => by
    obtain ⟨q, hq⟩ := isFinite_of_ofInt? hy
    exact checkNumber_negated hc hp fun _ => by simp [Number.isFinite, hq]
  obtain ⟨y, hy, hcheck, hcheck'⟩ : ∃ y, Number.ofInt? n = some y ∧
      checkNumber o x y = .answer b ∧ checkNumber p x y = .answer !b := by
    by_cases hne : o = .neq
    · obtain ⟨y, hy, hcheck⟩ := exists_ofInt?_of_checkInt (o := p)
        (by subst hne; cases hp; decide) h'
      exact ⟨y, hy, by simpa using Check.negate_eq_answer.mp ((hnegated y hy).symm.trans hcheck),
        hcheck⟩
    · obtain ⟨y, hy, hcheck⟩ := exists_ofInt?_of_checkInt hne h
      exact ⟨y, hy, hcheck, by rw [hnegated y hy, hcheck, Check.negate]⟩
  -- Of equality and its complement one sees all digits of the integer.
  have hsame : ∀ v, checkInt .neq x n = .answer v → checkNumber .neq x y = .answer v →
      y.same x = x.sameInt n := fun v hv hv' => by
    rw [checkInt, if_pos rfl, Check.answer.injEq] at hv
    rw [checkNumber, if_pos rfl, Check.answer.injEq] at hv'
    exact Bool.not_inj (hv'.trans hv.symm)
  refine ⟨y, hy, fun ho => ?_⟩
  rcases eq_or_neq_of_isOrdering hc ho with rfl | rfl
  · cases hp
    exact hsame _ h' hcheck'
  · exact hsame _ h hcheck

/-- Only what is read as it is is checked against the complement with the opposite answer. -/
theorem readsExactly_of_answers {b : Bool} (hc : c.IsOrdinary) (hd : c.negated? = some d)
    (h : c.satisfiedBy given = .answer b) (h' : d.satisfiedBy given = .answer !b) :
    c.ReadsExactly given := by
  obtain ⟨s, o, w⟩ := c
  obtain ⟨p, hp, rfl⟩ := Option.map_eq_some_iff.mp hd
  rintro x rfl
  refine ⟨?_, ?_⟩
  · rintro n rfl
    exact exists_same_of_checkInt hc hp h h'
  · rintro y rfl ho
    obtain ⟨a, ha⟩ := Option.isSome_iff_exists.mp (hc.finite x rfl)
    cases hy : y.value? with
    | some q => simp [Number.isFinite, hy]
    | none =>
        have hb := h.symm.trans (checkNumber_of_not_finite ho ha hy)
        have hb' := h'.symm.trans
          (checkNumber_of_not_finite ((Operator.isOrdering_of_negated hp).trans ho) ha hy)
        rw [Check.answer.injEq] at hb hb'
        simp [hb] at hb'

theorem checkText_cases (complement : Bool) (named : TextSet) (given : Json) :
    ValueKind.string.admits given = true ∧ (∃ b, checkText complement named given = .answer b) ∨
      ValueKind.string.admits given = false ∧
        ∃ m, checkText complement named given = .mismatch m := by
  cases given with
  | str s => exact .inl ⟨rfl, _, rfl⟩
  | arr items =>
      cases h : textsOf? items with
      | none => exact .inr ⟨by simp [ValueKind.admits, h], .notTexts, by simp [checkText, h]⟩
      | some ss =>
          exact .inl ⟨by simp [ValueKind.admits, h], ss.any named.contains != complement,
            by simp only [checkText, h]⟩
  | _ => exact .inr ⟨rfl, _, rfl⟩

/-- What is read as it is is checked with an answer if it is of the domain, and is a mismatch
otherwise. -/
theorem satisfiedBy_of_readsExactly (hc : c.IsOrdinary) (hexact : c.ReadsExactly given) :
    c.domain.admits given = true ∧ (∃ b, c.satisfiedBy given = .answer b) ∨
      c.domain.admits given = false ∧ ∃ m, c.satisfiedBy given = .mismatch m := by
  obtain ⟨s, o, w⟩ := c
  cases w with
  | number x =>
      obtain ⟨hint, -⟩ := hexact x rfl
      cases given with
      | int n =>
          obtain ⟨y, hy, hsame⟩ := hint n rfl
          obtain ⟨b, hb⟩ := exists_checkNumber hc.comparison hc.fits x y
          exact .inl ⟨rfl, b, (checkInt_of_readsExactly hy hsame).trans hb⟩
      | float y => exact .inl ⟨rfl, exists_checkNumber hc.comparison hc.fits x y⟩
      | _ => exact .inr ⟨rfl, _, rfl⟩
  | flag b =>
      cases given with
      | bool v => exact .inl ⟨rfl, _, rfl⟩
      | _ => exact .inr ⟨rfl, _, rfl⟩
  | text t => exact checkText_cases _ _ given
  | texts ts => exact checkText_cases _ _ given

end Checks

end Constraint

section Rules

/-- Whether a comparison is the complement of another one: its operator is the complementary one,
and its variable and its operand are the same. -/
def Head.IsComplementOf (d c : Head) : Prop :=
  d.subject = c.subject ∧ d.value = c.value ∧ c.operator.negated? = some d.operator

variable {inputs : Inputs} {h : Head} {v : Operand} {given : Json}

theorem Head.IsSound.isOrdinary {n : Nat} (hs : h.IsSound n) (hl : h.operator.isLogical = false)
    (hv : h.value = some v) : (Constraint.mk h.subject h.operator v).IsOrdinary := by
  obtain ⟨-, w, hw, hfits, hfinite⟩ := hs.comparison hl
  obtain rfl := Option.some.inj (hw.symm.trans hv)
  exact ⟨⟨hl, hfits⟩, hfinite⟩

/-- A comparison whose variable is given a value takes the answer of the check, and is false on a
mismatch. -/
theorem Head.IsSound.exists_meaning_of_given {n : Nat} (hs : h.IsSound n) (hv : h.value = some v)
    (hgiven : inputs.lookup h.subject = some given) {b : Bool}
    (hcheck : (Constraint.mk h.subject h.operator v).satisfiedBy given = .answer b ∨
      b = false ∧ ∃ m, (Constraint.mk h.subject h.operator v).satisfiedBy given = .mismatch m) :
    ∃ o, h.meaning inputs = some o ∧ o.value = some b := by
  obtain ⟨x, hx, -⟩ := hs.confidence
  simp only [Head.meaning, hv, hx, hgiven]
  rcases hcheck with hb | ⟨rfl, m, hm⟩
  · exact ⟨⟨some b, x, .empty⟩, by rw [hb], rfl⟩
  · exact ⟨⟨some false, x, .empty⟩, by rw [hm], rfl⟩

/-- The values of a comparison and of its complement: they are opposite where the value is of the
domain, and both false where it is not. -/
theorem Head.exists_meanings_of_complement {c d : Head} {m n : Nat} (hc : c.IsSound m)
    (hd : d.IsSound n) (hcd : d.IsComplementOf c) (hv : c.value = some v)
    (hgiven : inputs.lookup c.subject = some given)
    (hexact : (Constraint.mk c.subject c.operator v).ReadsExactly given) :
    ∃ o o' a b, c.meaning inputs = some o ∧ o.value = some a ∧
      d.meaning inputs = some o' ∧ o'.value = some b ∧
      (v.kind.domain.admits given = true → b = !a) ∧
      (v.kind.domain.admits given = false → a = false ∧ b = false) := by
  obtain ⟨hsubject, hvalue, hop⟩ := hcd
  have hordinary := hc.isOrdinary (Operator.isLogical_of_negated hop).1 hv
  have hturned := Constraint.satisfiedBy_negated hordinary
    (d := ⟨c.subject, d.operator, v⟩) (by simp [Constraint.negated?, hop]) hexact
  rw [← hsubject] at hturned
  have hgiven' : inputs.lookup d.subject = some given := hsubject ▸ hgiven
  have hv' : d.value = some v := hvalue.trans hv
  rcases Constraint.satisfiedBy_of_readsExactly hordinary hexact with
    ⟨hadmits, a, ha⟩ | ⟨hadmits, e, he⟩
  · have ha' : (Constraint.mk d.subject d.operator v).satisfiedBy given = .answer !a := by
      rw [hturned, hsubject, ha, Check.negate]
    obtain ⟨o, ho, hoa⟩ := hc.exists_meaning_of_given hv hgiven (.inl ha)
    obtain ⟨o', ho', hob⟩ := hd.exists_meaning_of_given hv' hgiven' (.inl ha')
    exact ⟨o, o', a, !a, ho, hoa, ho', hob, fun _ => rfl,
      fun h => absurd (hadmits.symm.trans h) (by decide)⟩
  · have he' : (Constraint.mk d.subject d.operator v).satisfiedBy given = .mismatch e := by
      rw [hturned, hsubject, he]
      rfl
    obtain ⟨o, ho, hoa⟩ := hc.exists_meaning_of_given hv hgiven (.inr ⟨rfl, e, he⟩)
    obtain ⟨o', ho', hob⟩ := hd.exists_meaning_of_given hv' hgiven' (.inr ⟨rfl, e, he'⟩)
    exact ⟨o, o', false, false, ho, hoa, ho', hob,
      fun h => absurd (hadmits.symm.trans h) (by decide), fun _ => ⟨rfl, rfl⟩⟩

/-- The negation of a comparison has the opposite outcome. -/
theorem Rule.meaning_of_negation {n c : Head} (hn : n.operator = .not)
    (hc : c.operator.isLogical = false) {o : Outcome} (ho : c.meaning inputs = some o) :
    (Rule.node n [.node c []]).meaning inputs = some o.negation := by
  have hchild : (Rule.node c []).meaning inputs = some o := by
    rw [Rule.meaning_of_comparison hc, ho]
  rw [Rule.meaning, if_pos (by rw [hn]; rfl), Rule.meanings, Rule.meanings, hchild, hn]
  rfl

end Rules

namespace PolicyGraph

variable {cfg : Settings} {g : PolicyGraph} {s : RuleSet} {inputs : Inputs}

/-- Whether the node of a rule is evaluated to a truth value, or to none. -/
def RuleHasValue (g : PolicyGraph) (inputs : Inputs) (id : String) (v : Option Bool) : Prop :=
  ∃ n, g.node? (.str (Node.conditionKey id)) = some n ∧ g.HasValue inputs n v

theorem RuleHasValue.unique {id : String} {v w : Option Bool} (hv : g.RuleHasValue inputs id v)
    (hw : g.RuleHasValue inputs id w) : v = w := by
  obtain ⟨n, hn, hv⟩ := hv
  obtain ⟨m, hm, hw⟩ := hw
  obtain rfl := Option.some.inj (hn.symm.trans hm)
  exact hv.unique hw

/-- In the graph of a rule set every rule has the value of its meaning. -/
theorem ruleHasValue_of_meaning (hs : s.validate cfg = .ok s) (hg : (s.build cfg).outcome = .ok g)
    {r : Rule} (hr : r ∈ Rule.walkAll s.rules) {o : Outcome} (ho : r.meaning inputs = some o) :
    g.RuleHasValue inputs r.id o.value := by
  obtain ⟨p, hp, h⟩ := isDrawnFrom_of_build hs hg
  obtain ⟨q, hq, rfl⟩ := List.mem_map.mp ((RuleSet.placed_perm
    (RuleSet.isAccepted_of_validate hs).1 (RuleSet.checkedPlan_spec hp).1).mem_iff.mpr hr)
  exact ⟨_, h.node?_condition hq, (h.hasValue_iff hq).mpr ⟨o, ho, rfl⟩⟩

/-- A comparison whose variable is given a value that is read as it is: its negation has the value
of its complement where the value is of the domain, and is true where it is not, while the
complement is false. -/
theorem value_of_complement {t : RuleSet} {k : PolicyGraph} (hs : s.validate cfg = .ok s)
    (hg : (s.build cfg).outcome = .ok g) (ht : t.validate cfg = .ok t)
    (hk : (t.build cfg).outcome = .ok k) {n c d : Head}
    (hn : .node n [.node c []] ∈ Rule.walkAll s.rules) (hnot : n.operator = .not)
    (hd : .node d [] ∈ Rule.walkAll t.rules) (hcd : d.IsComplementOf c) {v : Operand}
    (hv : c.value = some v) {es : Entries Json} (hinputs : Schema.inputEntries es = .ok inputs)
    {given : Json} (hgiven : es.get? c.subject = some given)
    (hexact : (Constraint.mk c.subject c.operator v).ReadsExactly given) :
    ∃ a b : Bool, g.RuleHasValue inputs n.id (some a) ∧ k.RuleHasValue inputs d.id (some b) ∧
      (v.kind.domain.admits given = true → a = b) ∧
      (v.kind.domain.admits given = false → a = true ∧ b = false) := by
  have hsound := (RuleSet.isAccepted_of_validate hs).1.sound
  have hchild : Rule.node c [] ∈ Rule.walkAll s.rules :=
    Rule.mem_walkAll_of_mem_children List.mem_cons_self _ hn
  have ⟨hl, hl'⟩ := Operator.isLogical_of_negated hcd.2.2
  obtain ⟨o, o', a, b, ho, ha, ho', hb, hadmits, hmismatch⟩ :=
    Head.exists_meanings_of_complement (hsound _ hchild)
      ((RuleSet.isAccepted_of_validate ht).1.sound _ hd) hcd hv
      ((Schema.lookup_of_inputEntries hinputs c.subject).trans hgiven) hexact
  have hnegation := ruleHasValue_of_meaning hs hg hn (Rule.meaning_of_negation hnot hl ho)
  have hcomplement := ruleHasValue_of_meaning ht hk hd
    ((Rule.meaning_of_comparison hl' []).trans ho')
  refine ⟨!a, b, ?_, hb ▸ hcomplement, fun h => (hadmits h).symm, fun h => ?_⟩
  · have hvalue : o.negation.value = some !a := by
      rw [Outcome.negation, ha]
      cases a <;> rfl
    rwa [hvalue] at hnegation
  · obtain ⟨rfl, rfl⟩ := hmismatch h
    exact ⟨rfl, rfl⟩

section Ages

/-- A comparison of the age with eighteen. -/
def ageComparison (id : String) (o : Operator) : Head :=
  { id, subject := "age", operator := o, value := some (.number (.finite 18)), clause := "c",
    confidence := some Number.one }

/-- The negation of a comparison. -/
def ageNegation : Head :=
  { id := "n", subject := "age", operator := .not, clause := "c", confidence := some Number.one }

/-- Not to be under age, next to being of age. -/
def ofAge : RuleSet where
  rules := [.node ageNegation [.node (ageComparison "a" .lt) []], .node (ageComparison "b" .gte) []]
  documents := [{ policy := "p", clauses := [{ id := "c" }] }]

def ofAgePlan : Plan := ⟨ofAge.documents, ofAge.rules.map ("p", ·)⟩

theorem exists_ofAge : ∃ g : PolicyGraph, ofAge.validate .standard = .ok ofAge ∧
    (ofAge.build .standard).outcome = .ok g ∧ g.IsDrawnFrom .standard ofAgePlan :=
  exists_build (by decide +kernel) rfl (by decide +kernel)

/-- At thirty both rules agree, and where the age is a text only the negation is true. -/
theorem value_of_complement_ofAge : ∃ g : PolicyGraph, (ofAge.build .standard).outcome = .ok g ∧
    (∃ a : Bool, g.RuleHasValue [("age", .int 30)] "n" (some a) ∧
      g.RuleHasValue [("age", .int 30)] "b" (some a)) ∧
    g.RuleHasValue [("age", .str "x")] "n" (some true) ∧
    g.RuleHasValue [("age", .str "x")] "b" (some false) := by
  obtain ⟨g, hs, hg, -⟩ := exists_ofAge
  have hat : ∀ given, Schema.inputEntries [(.str "age", given)] = .ok [("age", given)] →
      (Constraint.mk "age" .lt (.number (.finite 18))).ReadsExactly given →
      ∃ a b : Bool, g.RuleHasValue [("age", given)] "n" (some a) ∧
        g.RuleHasValue [("age", given)] "b" (some b) ∧
        (ValueKind.numeric.admits given = true → a = b) ∧
        (ValueKind.numeric.admits given = false → a = true ∧ b = false) :=
    fun given hread hexact => value_of_complement hs hg hs hg (n := ageNegation)
      (c := ageComparison "a" .lt) (d := ageComparison "b" .gte) List.mem_cons_self rfl
      (by simp [ofAge, Rule.walkAll, Rule.walk]) ⟨rfl, rfl, rfl⟩ rfl hread
      (by simp [Entries.get?, ageComparison]) hexact
  obtain ⟨a, b, hn, hb, hadmits, -⟩ := hat (.int 30) rfl fun _ _ =>
    ⟨fun _ hn => ⟨.finite 30, by cases hn; decide +kernel, fun ho => by cases ho⟩,
      fun _ hy => by cases hy⟩
  obtain ⟨a', b', hn', hb', -, hmismatch⟩ := hat (.str "x") rfl fun _ _ =>
    ⟨fun _ hn => (by cases hn), fun _ hy => by cases hy⟩
  obtain rfl := hadmits rfl
  obtain ⟨rfl, rfl⟩ := hmismatch rfl
  exact ⟨g, hg, ⟨a, hn, hb⟩, hn', hb'⟩

/-- Where the age is a text, not to be under age is true and to be of age is false. -/
theorem not_forall_value_of_complement :
    ¬ ∀ (cfg : Settings) (s : RuleSet) (g : PolicyGraph) (n c d : Head) (es : Entries Json)
        (inputs : Inputs) (v w : Option Bool),
      s.validate cfg = .ok s → (s.build cfg).outcome = .ok g →
      .node n [.node c []] ∈ Rule.walkAll s.rules → n.operator = .not →
      .node d [] ∈ Rule.walkAll s.rules → d.IsComplementOf c →
      Schema.inputEntries es = .ok inputs → (es.get? c.subject).isSome = true →
      g.RuleHasValue inputs n.id v → g.RuleHasValue inputs d.id w → v = w := by
  intro hall
  obtain ⟨g, hs, hg, -⟩ := exists_ofAge
  let fs : Inputs := [("age", .str "x")]
  have hvalue : ∀ r ∈ Rule.walkAll ofAge.rules, ∀ v, (r.meaning fs).map Outcome.value = some v →
      g.RuleHasValue fs r.id v := fun r hr v hv => by
    obtain ⟨o, ho, rfl⟩ := Option.map_eq_some_iff.mp hv
    exact ruleHasValue_of_meaning hs hg hr ho
  have hn : Rule.node ageNegation [.node (ageComparison "a" .lt) []] ∈ Rule.walkAll ofAge.rules :=
    List.mem_cons_self
  have hd : Rule.node (ageComparison "b" .gte) [] ∈ Rule.walkAll ofAge.rules := by
    simp [ofAge, Rule.walkAll, Rule.walk]
  have hequal : (some true : Option Bool) = some false :=
    hall .standard ofAge g ageNegation (ageComparison "a" .lt) (ageComparison "b" .gte)
      [(.str "age", .str "x")] fs _ _ hs hg hn rfl hd ⟨rfl, rfl, rfl⟩ rfl
      (by simp [Entries.get?, ageComparison]) (hvalue _ hn (some true) (by decide +kernel))
      (hvalue _ hd (some false) (by decide +kernel))
  cases hequal

end Ages

end PolicyGraph
end Eligibility
