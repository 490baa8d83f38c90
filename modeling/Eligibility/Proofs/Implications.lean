import Eligibility.Proofs.Satisfaction
/-!
# Implication of constraints

**Meaning.**  One constraint implies another one on the same variable where every value that meets
the first meets the second.  The complement of a constraint is met by the other values of the
domain, so that implication is the same question as joint satisfiability with the complement.

**Results.**
* `implies_iff`: implication is decided in the ordinary sense.
* `implies_eq_not_jointly`: implication and joint satisfiability are dual.
* `jointly_and_satisfiedBy_iff`: joint satisfiability and the check of a value are exact.
* `implies_laws`: implication is exact, a preorder, and turned around by complements.
-/

namespace Eligibility
namespace Constraint

section Numbers

variable {o p : Operator} {x y : Number} {a b : Rat} {i j : Interval}

theorem contains_iff_compares (hx : x.value? = some a) (hy : y.value? = some b)
    (hi : intervalOf o x = some i) (hj : intervalOf p y = some j) :
    j.contains i = true ↔ ∀ q, o.Compares q a → p.Compares q b := by
  rw [Interval.contains_iff (isProper_of_intervalOf hy hj) (isProper_of_intervalOf hx hi)]
  exact forall_congr' fun q => by rw [mem_intervalOf hx hi, mem_intervalOf hy hj]

/-- Inequality apart, no comparison is met by all numbers but one. -/
theorem exists_not_compares (hp : p ≠ .neq) (a b : Rat) : ∃ q, q ≠ a ∧ ¬ p.Compares q b := by
  have habove : max a b + 1 ≠ a ∧ b < max a b + 1 := by grind
  have hbelow : min a b - 1 ≠ a ∧ min a b - 1 < b := by grind
  cases p with
  | neq => exact absurd rfl hp
  | eq => exact ⟨_, habove.1, habove.2.ne'⟩
  | lt => exact ⟨_, habove.1, habove.2.not_gt⟩
  | lte => exact ⟨_, habove.1, habove.2.not_ge⟩
  | gt => exact ⟨_, hbelow.1, hbelow.2.not_gt⟩
  | gte => exact ⟨_, hbelow.1, hbelow.2.not_ge⟩
  | _ => exact ⟨_, habove.1, id⟩

theorem numbersImply_iff (hx : x.value? = some a) (hy : y.value? = some b) {r : Bool}
    (h : numbersImply o x p y = some r) :
    r = true ↔ ∀ q, o.Compares q a → p.Compares q b := by
  unfold numbersImply at h
  split_ifs at h with hp ho ho
  · subst hp ho
    cases h
    rw [Number.same_of_value? hx hy, decide_eq_true_iff]
    refine ⟨fun hab q hq => hab ▸ hq, fun hall => ?_⟩
    by_contra hab
    exact hall b (Ne.symm hab) rfl
  · obtain ⟨i, hi, rfl⟩ := Option.map_eq_some_iff.mp h
    subst hp
    rw [Bool.not_eq_true', ← Bool.not_eq_true, containsPoint_iff hx hy hi]
    exact ⟨fun hno q hq hqb => hno (hqb ▸ hq), fun hall hb => hall b hb rfl⟩
  · subst ho
    cases h
    obtain ⟨q, hqa, hqb⟩ := exists_not_compares hp a b
    simpa using ⟨q, hqa, hqb⟩
  · cases hi : intervalOf o x with
    | none => simp [hi] at h
    | some i =>
        cases hj : intervalOf p y with
        | none => simp [hi, hj] at h
        | some j =>
            rw [hi, hj] at h
            cases h
            exact contains_iff_compares hx hy hi hj

end Numbers

theorem TextRange.implies_iff {r t : TextRange} :
    r.implies t = true ↔ ∀ s, (r.named.contains s != r.complement) = true →
      (t.named.contains s != t.complement) = true := by
  obtain ⟨rs, rc⟩ := r
  obtain ⟨ts, tc⟩ := t
  cases rc <;> cases tc
  · simp [TextRange.implies, TextSet.subset_iff]
  · simp [TextRange.implies, ← Bool.not_eq_true, TextSet.meets_iff]
  · obtain ⟨s, hs⟩ := exists_not_mem (rs.members ++ ts.members)
    simp only [List.mem_append, not_or] at hs
    simpa [TextRange.implies, contains_eq_false] using ⟨s, hs⟩
  · simp only [TextRange.implies, TextSet.subset_iff, Bool.bne_true, Bool.not_eq_true',
      contains_eq_false]
    exact forall_congr' fun s => not_imp_not.symm

variable {c d : Constraint}

theorem implies_of_textRange {r t : TextRange} (h : comparable c d = true)
    (hr : c.textRange? = some r) (ht : d.textRange? = some t) :
    c.implies d = some (r.implies t) := by
  obtain ⟨_, o, w⟩ := c
  obtain ⟨_, p, u⟩ := d
  rw [implies, h]
  cases w <;> cases hr <;> cases u <;> cases ht <;> rfl

theorem implies_iff_of_textRange {r t : TextRange} (hc : c.IsFitting) (hd : d.IsFitting)
    (h : comparable c d = true) (hr : c.textRange? = some r) (ht : d.textRange? = some t) :
    c.implies d = some true ↔ ∀ v, c.Meets v → d.Meets v := by
  rw [implies_of_textRange h hr ht, Option.some.injEq, TextRange.implies_iff]
  refine ⟨fun hall v hv => ?_, fun hall s hs => ?_⟩
  · obtain ⟨s, rfl⟩ := exists_text_of_meets hr hv
    exact (contains_iff hd ht).mp (hall s ((contains_iff hc hr).mpr hv))
  · exact (contains_iff hd ht).mpr (hall _ ((contains_iff hc hr).mp hs))

section Pairs

variable {s t : String} {o p : Operator}

theorem implies_number_iff {x y : Number} (hc : IsOrdinary ⟨s, o, .number x⟩)
    (hd : IsOrdinary ⟨t, p, .number y⟩)
    (h : comparable ⟨s, o, .number x⟩ ⟨t, p, .number y⟩ = true) :
    implies ⟨s, o, .number x⟩ ⟨t, p, .number y⟩ = some true ↔
      ∀ v, Meets ⟨s, o, .number x⟩ v → Meets ⟨t, p, .number y⟩ v := by
  obtain ⟨a, ha⟩ := Option.isSome_iff_exists.mp (hc.finite x rfl)
  obtain ⟨b, hb⟩ := Option.isSome_iff_exists.mp (hd.finite y rfl)
  obtain ⟨r, hr⟩ : ∃ r, numbersImply o x p y = some r :=
    exists_numbersImply hc.comparison hc.fits hd.comparison hd.fits
  have himplies : implies ⟨s, o, .number x⟩ ⟨t, p, .number y⟩ = some r := by
    rw [implies, h]
    exact hr
  rw [himplies, Option.some.injEq, numbersImply_iff ha hb hr]
  refine ⟨fun hall v hv => ?_, fun hall q hq => ?_⟩
  · cases v with
    | number q =>
        simp only [Meets, ha, hb, Option.some.injEq, exists_eq_left'] at hv ⊢
        exact hall q hv
    | _ => cases hv
  · simpa [Meets, hb] using hall (.number q) ⟨a, ha, hq⟩

theorem implies_flag_iff {f g : Bool} (hc : IsFitting ⟨s, o, .flag f⟩)
    (hd : IsFitting ⟨t, p, .flag g⟩) (h : comparable ⟨s, o, .flag f⟩ ⟨t, p, .flag g⟩ = true) :
    implies ⟨s, o, .flag f⟩ ⟨t, p, .flag g⟩ = some true ↔
      ∀ v, Meets ⟨s, o, .flag f⟩ v → Meets ⟨t, p, .flag g⟩ v := by
  have himplies : implies ⟨s, o, .flag f⟩ ⟨t, p, .flag g⟩ = some (flagsImply o f p g) := by
    rw [implies, h]
    rfl
  have hall : flagsImply o f p g = true ↔ ∀ b, o.Agrees b f → p.Agrees b g := by
    simp only [flagsImply, List.all_eq_true, Bool.or_eq_true, Bool.not_eq_true',
      ← Bool.not_eq_true, allowsFlag_iff hc, allowsFlag_iff hd, ← imp_iff_not_or]
    exact forall_congr' fun b => by cases b <;> simp
  rw [himplies, Option.some.injEq, hall]
  refine ⟨fun hall v hv => ?_, fun hall b hb => hall (.flag b) hb⟩
  cases v with
  | flag b => exact hall b hv
  | _ => cases hv

end Pairs

/-- One constraint implies another one on its variable where every value that meets the first meets
the second. -/
theorem implies_iff (hc : c.IsOrdinary) (hd : d.IsOrdinary) (hsubject : c.subject = d.subject)
    (hdomain : c.domain = d.domain) :
    c.implies d = some true ↔ ∀ v, c.Meets v → d.Meets v := by
  have h : comparable c d = true := by simp [comparable, hsubject, hdomain]
  obtain ⟨s, o, w⟩ := c
  obtain ⟨t, p, u⟩ := d
  cases w with
  | number x =>
      cases u with
      | number y => exact implies_number_iff hc hd h
      | _ => cases hdomain
  | flag f =>
      cases u with
      | flag g => exact implies_flag_iff hc.toIsFitting hd.toIsFitting h
      | _ => cases hdomain
  | text x =>
      cases u with
      | text y => exact implies_iff_of_textRange hc.toIsFitting hd.toIsFitting h rfl rfl
      | texts ys => exact implies_iff_of_textRange hc.toIsFitting hd.toIsFitting h rfl rfl
      | _ => cases hdomain
  | texts xs =>
      cases u with
      | text y => exact implies_iff_of_textRange hc.toIsFitting hd.toIsFitting h rfl rfl
      | texts ys => exact implies_iff_of_textRange hc.toIsFitting hd.toIsFitting h rfl rfl
      | _ => cases hdomain

section Complements

/-- The complement of an ordinary constraint is an ordinary constraint on the same values. -/
theorem IsOrdinary.exists_negated (hc : c.IsOrdinary) :
    ∃ d, c.negated? = some d ∧ d.IsOrdinary ∧ d.subject = c.subject ∧ d.domain = c.domain := by
  obtain ⟨p, hp, hcomparison, hfits⟩ := Operator.exists_negated? hc.comparison
  exact ⟨{ c with operator := p }, by rw [negated?, hp, Option.map_some],
    ⟨⟨hcomparison, (hfits _).symm.trans hc.fits⟩, hc.finite⟩, rfl, rfl⟩

/-- Implication fails where the first constraint and the complement of the second are jointly
satisfiable. -/
theorem implies_eq_not_jointly (hc : c.IsOrdinary) (hd : d.IsOrdinary)
    (hsubject : c.subject = d.subject) (hdomain : c.domain = d.domain) {e : Constraint}
    (he : d.negated? = some e) :
    ∃ r, c.jointly e = some r ∧ c.implies d = some (!r) := by
  obtain ⟨_, he', heordinary, hesubject, hedomain⟩ := hd.exists_negated
  obtain rfl := Option.some.inj (he.symm.trans he')
  obtain ⟨r, hr⟩ := exists_jointly hc.toIsFitting heordinary.toIsFitting
  obtain ⟨t, ht⟩ := exists_implies hc.toIsFitting hd.toIsFitting
  have hjointly : r = true ↔ ∃ v, c.Meets v ∧ e.Meets v := by
    rw [← jointly_iff hc heordinary (hsubject.trans hesubject.symm) (hdomain.trans hedomain.symm),
      hr, Option.some.injEq]
  have himplies : t = true ↔ ∀ v, c.Meets v → d.Meets v := by
    rw [← implies_iff hc hd hsubject hdomain, ht, Option.some.injEq]
  refine ⟨r, hr, ht.trans (congrArg some ?_)⟩
  rw [Bool.eq_iff_iff, Bool.not_eq_true', ← Bool.not_eq_true, himplies, hjointly, not_exists]
  refine forall_congr' fun v => ⟨fun hv ⟨hcv, hev⟩ => ?_, fun hv hcv => ?_⟩
  · exact (meets_negated hd he (hcv.kind_eq.trans hdomain)).mp hev (hv hcv)
  · by_contra hdv
    exact hv ⟨hcv, (meets_negated hd he (hcv.kind_eq.trans hdomain)).mpr hdv⟩

end Complements

section Exactness

/-- Whether two constraints on one variable are jointly satisfiable is answered, and the answer is
yes exactly where some value of the domain meets both in the ordinary sense; whether a given value
of the domain meets a constraint is answered in the ordinary sense too. -/
theorem jointly_and_satisfiedBy_iff (hc : c.IsOrdinary) (hd : d.IsOrdinary)
    (hsubject : c.subject = d.subject) (hdomain : c.domain = d.domain) :
    (∃ r, c.jointly d = some r ∧
      (r = true ↔ ∃ v : Scalar, v.kind = c.domain ∧ c.Meets v ∧ d.Meets v)) ∧
    ∀ given v, given.scalar? = some v → v.kind = c.domain →
      ∃ r, c.satisfiedBy given = .answer r ∧ (r = true ↔ c.Meets v) := by
  refine ⟨?_, fun given v hv hkind => exists_satisfiedBy hc hv hkind⟩
  obtain ⟨r, hr⟩ := exists_jointly hc.toIsFitting hd.toIsFitting
  refine ⟨r, hr, ?_⟩
  have hiff := jointly_iff hc hd hsubject hdomain
  rw [hr, Option.some.injEq] at hiff
  rw [hiff]
  exact exists_congr fun v => ⟨fun hv => ⟨hv.1.kind_eq, hv⟩, And.right⟩

/-- A bound on an age, which belongs to the ages that meet it. -/
def ageBound (o : Operator) (age : Rat) : Constraint := ⟨"age", o, .number (.finite age)⟩

theorem isOrdinary_ageBound {o : Operator} (ho : o.isLogical = false)
    (hfits : Head.fits o .numeric = true) (age : Rat) : (ageBound o age).IsOrdinary :=
  ⟨⟨ho, hfits⟩, by rintro x ⟨⟩; rfl⟩

/-- At most eighteen and at least eighteen touch in one age. -/
theorem jointly_and_satisfiedBy_iff_touching :
    (ageBound .lte 18).IsOrdinary ∧ (ageBound .gte 18).IsOrdinary ∧
      (∃ v : Scalar, v.kind = .numeric ∧ (ageBound .lte 18).Meets v ∧ (ageBound .gte 18).Meets v) ∧
      (ageBound .lte 18).Meets (.number 18) := by
  have hlte := isOrdinary_ageBound (o := .lte) rfl rfl 18
  have hgte := isOrdinary_ageBound (o := .gte) rfl rfl 18
  obtain ⟨⟨r, hr, hiff⟩, hgiven⟩ := jointly_and_satisfiedBy_iff hlte hgte rfl rfl
  obtain ⟨t, ht, hmeets⟩ := hgiven (.float (.finite 18)) (.number 18) rfl rfl
  have hjointly : (ageBound .lte 18).jointly (ageBound .gte 18) = some true := by decide +kernel
  have hanswer : (ageBound .lte 18).satisfiedBy (.float (.finite 18)) = .answer true := by
    decide +kernel
  refine ⟨hlte, hgte, hiff.mp ?_, hmeets.mp ?_⟩
  · exact Option.some.inj (hr.symm.trans hjointly)
  · exact Check.answer.inj (ht.symm.trans hanswer)

variable {a b : Constraint}

/-- On one variable and one domain implication is answered, and the answer is yes exactly where
every value of the domain that meets the first constraint meets the second.  It is the opposite of
the joint satisfiability with the complement; it is reflexive and transitive, and complements turn
it around. -/
theorem implies_laws (ha : a.IsOrdinary) (hb : b.IsOrdinary) (hc : c.IsOrdinary)
    (hab : a.subject = b.subject ∧ a.domain = b.domain)
    (hbc : b.subject = c.subject ∧ b.domain = c.domain) :
    (∃ r, a.implies b = some r ∧
      (r = true ↔ ∀ v : Scalar, v.kind = a.domain → a.Meets v → b.Meets v)) ∧
    a.implies a = some true ∧
    (a.implies b = some true → b.implies c = some true → a.implies c = some true) ∧
    ∃ a' b', a.negated? = some a' ∧ b.negated? = some b' ∧
      (∃ r, a.jointly b' = some r ∧ a.implies b = some (!r)) ∧ b'.implies a' = a.implies b := by
  obtain ⟨a', ha', hao, has, had⟩ := ha.exists_negated
  obtain ⟨b', hb', hbo, hbs, hbd⟩ := hb.exists_negated
  obtain ⟨r, hr⟩ := exists_implies ha.toIsFitting hb.toIsFitting
  have hiff : r = true ↔ ∀ v, a.Meets v → b.Meets v := by
    rw [← implies_iff ha hb hab.1 hab.2, hr, Option.some.injEq]
  refine ⟨⟨r, hr, hiff.trans ?_⟩, (implies_iff ha ha rfl rfl).mpr fun _ hv => hv,
    fun hab' hbc' => ?_, a', b', ha', hb', implies_eq_not_jointly ha hb hab.1 hab.2 hb', ?_⟩
  · exact forall_congr' fun v => ⟨fun h _ => h, fun h hv => h hv.kind_eq hv⟩
  · rw [implies_iff ha hc (hab.1.trans hbc.1) (hab.2.trans hbc.2)]
    rw [implies_iff ha hb hab.1 hab.2] at hab'
    rw [implies_iff hb hc hbc.1 hbc.2] at hbc'
    exact fun v hv => hbc' v (hab' v hv)
  · obtain ⟨t, ht⟩ := exists_implies hbo.toIsFitting hao.toIsFitting
    have hsubject : b'.subject = a'.subject := by rw [hbs, has, hab.1]
    have hdomain : b'.domain = a'.domain := by rw [hbd, had, hab.2]
    have hturned : t = true ↔ ∀ v, b'.Meets v → a'.Meets v := by
      rw [← implies_iff hbo hao hsubject hdomain, ht, Option.some.injEq]
    rw [ht, hr, Option.some.injEq, Bool.eq_iff_iff, hturned, hiff]
    -- a value outside the domain meets neither side
    refine forall_congr' fun v => ?_
    by_cases hv : v.kind = a.domain
    · rw [meets_negated ha ha' hv, meets_negated hb hb' (hv.trans hab.2), not_imp_not]
    · refine ⟨fun _ hav => absurd hav.kind_eq hv, fun _ hbv => absurd ?_ hv⟩
      rw [hbv.kind_eq, hbd, hab.2]

/-- A constraint on a status. -/
def statusRange (o : Operator) (names : List String) : Constraint :=
  ⟨"status", o, .texts (TextSet.ofList names)⟩

theorem isOrdinary_statusRange {o : Operator} (ho : o.isMembership = true) (names : List String) :
    (statusRange o names).IsOrdinary := by
  cases o with
  | isIn => exact ⟨⟨rfl, rfl⟩, by rintro x ⟨⟩⟩
  | notIn => exact ⟨⟨rfl, rfl⟩, by rintro x ⟨⟩⟩
  | _ => cases ho

/-- No status at all implies one that is not excluded, by way of one that is named. -/
theorem implies_laws_empty :
    (statusRange .isIn []).implies (statusRange .notIn ["b"]) = some true ∧
      ∀ v : Scalar, v.kind = .string → (statusRange .isIn []).Meets v →
        (statusRange .isIn ["a"]).Meets v := by
  obtain ⟨⟨r, hr, hiff⟩, -, htrans, -⟩ := implies_laws (isOrdinary_statusRange (o := .isIn) rfl [])
    (isOrdinary_statusRange (o := .isIn) rfl ["a"])
    (isOrdinary_statusRange (o := .notIn) rfl ["b"]) ⟨rfl, rfl⟩ ⟨rfl, rfl⟩
  have hfirst : (statusRange .isIn []).implies (statusRange .isIn ["a"]) = some true := by
    decide +kernel
  have hsecond : (statusRange .isIn ["a"]).implies (statusRange .notIn ["b"]) = some true := by
    decide +kernel
  exact ⟨htrans hfirst hsecond, hiff.mp (Option.some.inj (hr.symm.trans hfirst))⟩

end Exactness

end Constraint
end Eligibility
