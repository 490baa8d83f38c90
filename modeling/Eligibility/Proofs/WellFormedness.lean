import Mathlib.Tactic.SplitIfs
import Eligibility.Fault
import Eligibility.Proofs.Acceptance
/-!
# Well-formed rule sets

**Rules.**  A well-formed rule set is described rule by rule and pair by pair, in no
order: what each rule must say, that two comparisons on one variable agree on its
domain, that identifiers differ and that cited clauses exist.

**Validation.**  Validation visits rules in order, remembers the domains that it has
seen, and stops at the first fault.  It remembers enough: a rule set passes exactly when
it is well formed.

**Results.**
* `fault?_eq_none_iff`: the heads without a fault.
* `exists_foldlM_noteDomain_iff`: domains can be noted one after the other exactly when they
  agree.
* `checkTrees_eq_ok`: a walk passes where heads are well formed, identifiers differ and domains
  can be noted.
* `validate_iff`: what validation accepts, and what it refuses.
-/

namespace Eligibility

namespace Head

/-- The domain that a comparison gives to its variable. -/
def domain? (h : Head) : Option ValueKind :=
  if h.operator.isLogical then none else h.value.map fun v => v.kind.domain

/-- A head that says all that it must and nothing else, with a number of rules below it. -/
structure IsWellFormed (h : Head) (children : Nat) : Prop where
  id_ne : h.id ≠ ""
  subject_ne : h.subject ≠ ""
  clause_ne : h.clause ≠ ""
  confidence : ∃ x q, h.confidence = some x ∧ x.value? = some q ∧ 0 ≤ q ∧ q ≤ 1
  logical : h.operator ∈ [.and, .or, .not] →
    h.value = none ∧ 1 ≤ children ∧ (h.operator = .not → children = 1)
  comparison : h.operator ∉ [.and, .or, .not] → children = 0 ∧ ∃ v, h.value = some v ∧
    (h.operator ∈ [.lt, .lte, .gt, .gte] → v.kind = .numeric) ∧
    (h.operator ∈ [.isIn, .notIn] → v.kind = .stringSet) ∧
    (h.operator ∈ [.eq, .neq] → v.kind ≠ .stringSet) ∧
    ∀ x, v = .number x → x.isFinite = true

theorem isConfidence_iff {x : Number} :
    isConfidence x = true ↔ ∃ q, x.value? = some q ∧ 0 ≤ q ∧ q ≤ 1 := by
  cases x with
  | finite q => simp [isConfidence, Number.zero, Number.one, Number.le_finite, Number.value?]
  | negZero => decide
  | nan m => simp [isConfidence, Number.le, Number.lt, Number.same, Number.value?, Number.zero]
  | negInf => simp [isConfidence, Number.le, Number.lt, Number.same, Number.value?, Number.zero]
  | posInf => simp [isConfidence, Number.le, Number.lt, Number.same, Number.value?, Number.one]

theorem isLogical_iff {o : Operator} : o.isLogical = true ↔ o ∈ [.and, .or, .not] := by
  cases o <;> decide

theorem isLogical_eq_false_iff {o : Operator} : o.isLogical = false ↔ o ∉ [.and, .or, .not] := by
  cases o <;> decide

theorem fits_iff {o : Operator} {k : ValueKind} (ho : o ∉ [.and, .or, .not]) :
    fits o k = true ↔ (o ∈ [.lt, .lte, .gt, .gte] → k = .numeric) ∧
      (o ∈ [.isIn, .notIn] → k = .stringSet) ∧ (o ∈ [.eq, .neq] → k ≠ .stringSet) := by
  revert ho
  cases o <;> cases k <;> decide

theorem isSound_iff {h : Head} {n : Nat} : h.IsSound n ↔ h.IsWellFormed n := by
  constructor
  · intro hs
    obtain ⟨x, hx, hconf⟩ := hs.confidence
    obtain ⟨q, hq, hrange⟩ := isConfidence_iff.mp hconf
    refine ⟨hs.id_ne, hs.subject_ne, hs.clause_ne, ⟨x, q, hx, hq, hrange⟩, fun ho => ?_,
      fun ho => ?_⟩
    · obtain ⟨hv, hn, hnot⟩ := hs.logical (isLogical_iff.mpr ho)
      exact ⟨hv, Nat.one_le_iff_ne_zero.mpr hn, hnot⟩
    · obtain ⟨hn, v, hv, hfit, hfinite⟩ := hs.comparison (isLogical_eq_false_iff.mpr ho)
      obtain ⟨hordering, hmembership, hequality⟩ := (fits_iff ho).mp hfit
      exact ⟨hn, v, hv, hordering, hmembership, hequality, hfinite⟩
  · intro hw
    obtain ⟨x, q, hx, hq, hrange⟩ := hw.confidence
    refine ⟨hw.id_ne, hw.subject_ne, hw.clause_ne,
      ⟨x, hx, isConfidence_iff.mpr ⟨q, hq, hrange⟩⟩, fun ho => ?_, fun ho => ?_⟩
    · obtain ⟨hv, hn, hnot⟩ := hw.logical (isLogical_iff.mp ho)
      exact ⟨hv, Nat.one_le_iff_ne_zero.mp hn, hnot⟩
    · have ho := isLogical_eq_false_iff.mp ho
      obtain ⟨hn, v, hv, hordering, hmembership, hequality, hfinite⟩ := hw.comparison ho
      exact ⟨hn, v, hv, (fits_iff ho).mpr ⟨hordering, hmembership, hequality⟩, hfinite⟩

theorem operandFault?_eq_none {h : Head} {v : Operand} (hfit : fits h.operator v.kind = true)
    (hfinite : ∀ x, v = .number x → x.isFinite = true) : operandFault? h v = none := by
  unfold operandFault?
  rw [hfit, if_neg (by decide)]
  split
  · next x => rw [hfinite x rfl, if_pos rfl]
  · rfl

/-- A sound head has no fault. -/
theorem fault?_eq_none {h : Head} {n : Nat} (hs : h.IsSound n) : h.fault? n = none := by
  obtain ⟨x, hx, hconf⟩ := hs.confidence
  have hvalue : (h.operator.isComparison && h.value.isNone) = false := by
    cases ho : h.operator.isLogical with
    | true => simp [Operator.isComparison, ho]
    | false =>
        obtain ⟨-, v, hv, -⟩ := hs.comparison ho
        simp [hv]
  have hmissing : h.missing = [] := by
    simp [missing, hs.id_ne, hs.subject_ne, hs.clause_ne, hx, hvalue]
  rw [fault?, hmissing]
  simp only [List.isEmpty_nil, Bool.not_true, Bool.false_eq_true, if_false, hx, hconf]
  cases ho : h.operator.isLogical with
  | true =>
      obtain ⟨hv, hn, hnot⟩ := hs.logical ho
      have hnot : ¬ (h.operator = .not ∧ n ≠ 1) := fun he => he.2 (hnot he.1)
      simp [logicalFault?, hv, hn, hnot]
  | false =>
      obtain ⟨rfl, v, hv, hfit, hfinite⟩ := hs.comparison ho
      simp [comparisonFault?, hv, operandFault?_eq_none hfit hfinite]

/-- The heads without a fault are the well-formed ones. -/
theorem fault?_eq_none_iff {h : Head} {n : Nat} : h.fault? n = none ↔ h.IsWellFormed n :=
  ⟨fun hf => isSound_iff.mp (isSound_of_fault? hf), fun hw => fault?_eq_none (isSound_iff.mpr hw)⟩

end Head

namespace RuleSet

section Noting

/-- The domain that is known of a variable. -/
def known? (ds : Domains) (x : String) : Option ValueKind := (ds.lookup x).map (·.1)

variable {ds es : Domains} {h : Head} {hs : List Head}

theorem known?_append (k : ValueKind) (x y origin : String) :
    known? (ds ++ [(x, k, origin)]) y =
      (known? ds y).or (if y = x then some k else none) := by
  rw [known?, known?, List.lookup_append]
  by_cases hy : y = x
  · subst hy
    cases ds.lookup y <;> simp
  · have hne : (y == x) = false := by simpa using hy
    cases ds.lookup y <;> simp [hy, List.lookup_cons, hne]

/-- Noting the domain of a comparison fails where another one is known, and adds it where none
is. -/
theorem noteDomain_eq_ok (hok : noteDomain ds h = .ok es) :
    (∀ k, h.domain? = some k → ∀ l, known? ds h.subject = some l → l = k) ∧
      ∀ x, known? es x = (known? ds x).or (if x = h.subject then h.domain? else none) := by
  unfold noteDomain at hok
  unfold Head.domain?
  cases hv : h.value with
  | none =>
      rw [hv] at hok
      cases hok
      simp
  | some v =>
      rw [hv] at hok
      cases ho : h.operator.isLogical with
      | true =>
          simp only [ho, if_true] at hok
          cases hok
          simp
      | false =>
          simp only [ho, Bool.false_eq_true, if_false] at hok
          cases hlook : ds.lookup h.subject with
          | none =>
              rw [hlook] at hok
              cases hok
              refine ⟨fun k _ l hl => by simp [known?, hlook] at hl, fun x => ?_⟩
              simp [known?_append]
          | some e =>
              obtain ⟨k, origin⟩ := e
              rw [hlook] at hok
              simp only at hok
              split at hok
              · next hk =>
                cases hok
                subst hk
                refine ⟨fun k hk l hl => ?_, fun x => ?_⟩
                · simp_all [known?]
                · by_cases hx : x = h.subject
                  · simp [hx, known?, hlook]
                  · simp [hx]
              · cases hok

theorem exists_noteDomain
    (hk : ∀ k, h.domain? = some k → ∀ l, known? ds h.subject = some l → l = k) :
    ∃ es, noteDomain ds h = .ok es := by
  unfold noteDomain
  cases hv : h.value with
  | none => exact ⟨ds, rfl⟩
  | some v =>
      cases ho : h.operator.isLogical with
      | true => exact ⟨ds, by simp⟩
      | false =>
          cases hlook : ds.lookup h.subject with
          | none => exact ⟨ds ++ [(h.subject, v.kind.domain, h.id)], by simp⟩
          | some e =>
              have he : e.1 = v.kind.domain :=
                hk _ (by simp [Head.domain?, ho, hv]) _ (by simp [known?, hlook])
              exact ⟨ds, by simp [he]⟩

/-- Domains can be noted one after the other exactly when each agrees with the one that is known
from the start, and any two on one variable agree. -/
theorem exists_foldlM_noteDomain_iff : (∃ es, hs.foldlM noteDomain ds = .ok es) ↔
    (∀ h ∈ hs, ∀ k, h.domain? = some k → ∀ l, known? ds h.subject = some l → l = k) ∧
      ∀ a ∈ hs, ∀ b ∈ hs, a.subject = b.subject →
        ∀ k l, a.domain? = some k → b.domain? = some l → k = l := by
  induction hs generalizing ds with
  | nil => simp [pure, Except.pure]
  | cons h r ih =>
      constructor
      · rintro ⟨es, hes⟩
        rw [List.foldlM_cons] at hes
        obtain ⟨ds', hds', hes⟩ := Attempt.bind_eq_ok.mp hes
        obtain ⟨hfirst, hknown⟩ := noteDomain_eq_ok hds'
        obtain ⟨hrest, hpairs⟩ := ih.mp ⟨es, hes⟩
        -- what is known of the variable of `h` afterwards is the domain that `h` gives it
        have hlater : ∀ k, h.domain? = some k → known? ds' h.subject = some k := by
          intro k hk
          rw [hknown, if_pos rfl, hk]
          cases hl : known? ds h.subject with
          | none => rfl
          | some l => rw [hfirst k hk l hl]; rfl
        have hagree : ∀ b ∈ r, h.subject = b.subject →
            ∀ k l, h.domain? = some k → b.domain? = some l → k = l := by
          intro b hb hsubject k l hk hl
          exact hrest b hb l hl k (hsubject ▸ hlater k hk)
        refine ⟨List.forall_mem_cons.mpr ⟨hfirst, fun b hb k hk l hl => ?_⟩, ?_⟩
        · exact hrest b hb k hk l (by rw [hknown, hl]; rfl)
        · intro a ha b hb hsubject k l hk hl
          rcases List.mem_cons.mp ha with rfl | har
          · rcases List.mem_cons.mp hb with rfl | hbr
            · exact Option.some.inj (hk.symm.trans hl)
            · exact hagree b hbr hsubject k l hk hl
          · rcases List.mem_cons.mp hb with rfl | hbr
            · exact (hagree a har hsubject.symm l k hl hk).symm
            · exact hpairs a har b hbr hsubject k l hk hl
      · rintro ⟨hstart, hpairs⟩
        obtain ⟨hfirst, hrest⟩ := List.forall_mem_cons.mp hstart
        obtain ⟨ds', hds'⟩ := exists_noteDomain hfirst
        obtain ⟨-, hknown⟩ := noteDomain_eq_ok hds'
        have hstart' : ∀ b ∈ r, ∀ k, b.domain? = some k →
            ∀ l, known? ds' b.subject = some l → l = k := by
          intro b hb k hk l hl
          rw [hknown, Option.or_eq_some_iff] at hl
          rcases hl with hl | ⟨-, hl⟩
          · exact hrest b hb k hk l hl
          · split_ifs at hl with hsubject
            exact hpairs h (by simp) b (List.mem_cons_of_mem _ hb) hsubject.symm l k hl hk
        obtain ⟨es, hes⟩ := ih.mpr ⟨hstart', fun a ha b hb =>
          hpairs a (List.mem_cons_of_mem _ ha) b (List.mem_cons_of_mem _ hb)⟩
        exact ⟨es, by rw [List.foldlM_cons, hds', Attempt.ok_bind, hes]⟩

end Noting

section Walk

variable {ds es : Domains} {path : List String}

theorem checkHead_eq_noteDomain {h : Head} {n : Nat} (hpath : h.id ∉ path)
    (hf : h.fault? n = none) : checkHead path ds h n = noteDomain ds h := by
  rw [checkHead, if_neg fun hm => hpath hm.2, hf]

theorem noteDomain_of_checkHead {h : Head} {n : Nat} (hc : checkHead path ds h n = .ok es) :
    noteDomain ds h = .ok es := by
  have hf := checkHead_eq_ok hc
  unfold checkHead at hc
  split at hc
  · cases hc
  · rwa [hf] at hc

mutual

/-- A tree that passes has noted the domains of its heads. -/
theorem foldlM_of_checkTree {path : List String} {ds es : Domains} : ∀ r : Rule,
    checkTree path ds r = .ok es → r.heads.foldlM noteDomain ds = .ok es
  | .node h cs, hc => by
      unfold checkTree at hc
      split at hc
      · cases hc
      · next ds' hh =>
        rw [Rule.heads, List.foldlM_cons, noteDomain_of_checkHead hh, Attempt.ok_bind]
        exact foldlM_of_checkTrees cs hc

theorem foldlM_of_checkTrees {path : List String} {ds es : Domains} : ∀ rs : List Rule,
    checkTrees path ds rs = .ok es → (Rule.headsOf rs).foldlM noteDomain ds = .ok es
  | [], hc => hc
  | r :: rs, hc => by
      unfold checkTrees at hc
      split at hc
      · cases hc
      · next ds' hr =>
        rw [Rule.headsOf, List.foldlM_append, foldlM_of_checkTree r hr, Attempt.ok_bind]
        exact foldlM_of_checkTrees rs hc

end

mutual

/-- A tree passes where its heads have no fault, their identifiers differ from each other and from
those above, and their domains can be noted. -/
theorem checkTree_eq_ok {path : List String} {ds es : Domains} : ∀ r : Rule,
    (∀ t ∈ r.walk, t.head.fault? t.children.length = none) → (∀ h ∈ r.heads, h.id ∉ path) →
      (r.heads.map Head.id).Nodup → r.heads.foldlM noteDomain ds = .ok es →
        checkTree path ds r = .ok es
  | .node h cs, hf, hpath, hids, hds => by
      rw [Rule.heads] at hpath hids hds
      obtain ⟨hpath, hbelow⟩ := List.forall_mem_cons.mp hpath
      obtain ⟨hid, hids⟩ := List.nodup_cons.mp hids
      rw [List.foldlM_cons] at hds
      obtain ⟨ds', hds', hes⟩ := Attempt.bind_eq_ok.mp hds
      have hhead : h.fault? cs.length = none := hf (.node h cs) (Rule.mem_walk_self _)
      rw [checkTree, checkHead_eq_noteDomain hpath hhead, hds']
      refine checkTrees_eq_ok cs (fun t ht => hf t (by simp [Rule.walk, ht])) (fun k hk => ?_)
        hids hes
      rw [List.mem_append, List.mem_singleton, not_or]
      exact ⟨hbelow k hk, fun he => hid (he ▸ List.mem_map_of_mem hk)⟩

theorem checkTrees_eq_ok {path : List String} {ds es : Domains} : ∀ rs : List Rule,
    (∀ t ∈ Rule.walkAll rs, t.head.fault? t.children.length = none) →
      (∀ h ∈ Rule.headsOf rs, h.id ∉ path) → ((Rule.headsOf rs).map Head.id).Nodup →
        (Rule.headsOf rs).foldlM noteDomain ds = .ok es → checkTrees path ds rs = .ok es
  | [], _, _, _, hds => hds
  | r :: rs, hf, hpath, hids, hds => by
      rw [Rule.headsOf] at hpath hids hds
      rw [List.map_append] at hids
      rw [List.foldlM_append] at hds
      obtain ⟨ds', hds', hes⟩ := Attempt.bind_eq_ok.mp hds
      have hr := checkTree_eq_ok r (fun t ht => hf t (by simp [Rule.walkAll, ht]))
        (fun h hh => hpath h (List.mem_append_left _ hh)) (List.Nodup.of_append_left hids) hds'
      rw [checkTrees, hr]
      exact checkTrees_eq_ok rs (fun t ht => hf t (by simp [Rule.walkAll, ht]))
        (fun h hh => hpath h (List.mem_append_right _ hh)) (List.Nodup.of_append_right hids) hes

end

end Walk

section Sets

theorem repeated?_eq_none_iff {xs : List String} : repeated? xs = none ↔ xs.Nodup := by
  refine ⟨nodup_of_repeated?, fun hxs => ?_⟩
  rw [repeated?, Option.map_eq_none_iff, List.find?_eq_none]
  intro x _
  have := List.nodup_iff_count_le_one.mp hxs x
  simpa using this

theorem repeatedClause?_eq_none {seen : List String} {cs : List (String × String)}
    (hcs : (cs.map (·.1)).Nodup) (hseen : ∀ c ∈ cs.map (·.1), c ∉ seen) :
    repeatedClause? seen cs = none := by
  induction cs generalizing seen with
  | nil => rfl
  | cons c r ih =>
      obtain ⟨hc, hr⟩ := List.nodup_cons.mp hcs
      obtain ⟨hcseen, hrseen⟩ := List.forall_mem_cons.mp hseen
      rw [repeatedClause?, if_neg hcseen]
      refine ih hr fun d hd => ?_
      rw [List.mem_cons, not_or]
      refine ⟨?_, hrseen d hd⟩
      rintro rfl
      exact hc hd

theorem ownedClauses_fst (ds : List Document) :
    (ownedClauses ds).map (·.1) = ds.flatMap fun d => d.clauses.map Clause.id := by
  simp [ownedClauses, List.map_flatMap, Function.comp_def]

/-- A rule set in which all that validation asks for holds, in whatever order one looks. -/
structure IsWellFormed (cfg : Settings) (s : RuleSet) : Prop where
  version : s.version ∈ cfg.supportedVersions
  declared : ∀ d ∈ s.domains, d.2 ≠ .stringSet
  rules : ∀ r ∈ Rule.walkAll s.rules, r.head.IsWellFormed r.children.length
  domains : ∀ a ∈ s.heads, ∀ b ∈ s.heads, a.subject = b.subject →
    ∀ k l, a.domain? = some k → b.domain? = some l → k = l
  declaredDomains : ∀ h ∈ s.heads, ∀ k, h.domain? = some k →
    ∀ l, s.domains.lookup h.subject = some l → l = k
  ids : (s.heads.map Head.id).Nodup
  policies : s.documents ≠ [] → (s.documents.map Document.policy).Nodup
  clauses : s.documents ≠ [] → (s.documents.flatMap fun d => d.clauses.map Clause.id).Nodup
  cited : s.documents ≠ [] →
    ∀ h ∈ s.heads, ∃ d ∈ s.documents, ∃ c ∈ d.clauses, c.id = h.clause

theorem documentFault?_eq_none {s : RuleSet}
    (hp : s.documents ≠ [] → (s.documents.map Document.policy).Nodup)
    (hc : s.documents ≠ [] → ((ownedClauses s.documents).map (·.1)).Nodup)
    (hcited : s.documents ≠ [] → ∀ h ∈ s.heads, h.clause ∈ (ownedClauses s.documents).map (·.1)) :
    s.documentFault? = none := by
  unfold documentFault?
  split
  · rfl
  · next he =>
    have hne : s.documents ≠ [] := by simpa using he
    rw [repeated?_eq_none_iff.mpr (hp hne), repeatedClause?_eq_none (hc hne) (by simp)]
    simpa [List.find?_eq_none] using hcited hne

theorem known?_declared (ds : List (String × ValueKind)) (x : String) :
    known? (ds.map fun d => (d.1, d.2, "declared")) x = ds.lookup x := by
  induction ds with
  | nil => rfl
  | cons d r ih =>
      simp only [known?] at ih ⊢
      rw [List.map_cons, List.lookup_cons, List.lookup_cons]
      cases hx : x == d.1 with
      | true => rfl
      | false => exact ih

theorem domainFault?_eq_none_iff {ds : List (String × ValueKind)} :
    domainFault? ds = none ↔ ∀ d ∈ ds, d.2 ≠ .stringSet := by
  have hscalar : ∀ k : ValueKind, (!k.isScalar) = true ↔ k = .stringSet := by
    intro k
    cases k <;> decide
  simp only [domainFault?, Option.map_eq_none_iff, List.find?_eq_none, hscalar, ne_eq]

/-- The rule sets without a fault are the well-formed ones. -/
theorem fault?_eq_none_iff {cfg : Settings} {s : RuleSet} :
    s.fault? cfg = none ↔ s.IsWellFormed cfg := by
  constructor
  · intro hf
    have hvalid : s.validate cfg = .ok s := by rw [validate, hf]
    obtain ⟨haccepted, -⟩ := isAccepted_of_validate hvalid
    unfold fault? at hf
    split at hf
    · cases hf
    next hversion =>
    split at hf
    · cases hf
    next hdeclared =>
    split at hf
    · cases hf
    next es hes =>
    obtain ⟨hknown, hpairs⟩ := exists_foldlM_noteDomain_iff.mp ⟨es, foldlM_of_checkTrees _ hes⟩
    simp only [known?_declared] at hknown
    refine ⟨by simpa using hversion, domainFault?_eq_none_iff.mp hdeclared,
      fun r hr => Head.isSound_iff.mp (haccepted.sound r hr), hpairs, hknown, haccepted.ids,
      fun _ => haccepted.policies, fun _ => ownedClauses_fst _ ▸ haccepted.clauses,
      fun hne h hh => ?_⟩
    simpa [ownedClauses_fst] using haccepted.cited hne h hh
  · intro hw
    have hknown := hw.declaredDomains
    simp only [← known?_declared] at hknown
    obtain ⟨es, hes⟩ := exists_foldlM_noteDomain_iff.mpr ⟨hknown, hw.domains⟩
    have hwalk : checkTrees [] (s.domains.map fun d => (d.1, d.2, "declared")) s.rules = .ok es :=
      checkTrees_eq_ok s.rules (fun t ht => Head.fault?_eq_none_iff.mpr (hw.rules t ht)) (by simp)
        hw.ids hes
    rw [fault?, if_neg (by simpa using hw.version), domainFault?_eq_none_iff.mpr hw.declared, hwalk]
    simp only [repeated?_eq_none_iff.mpr hw.ids]
    refine documentFault?_eq_none hw.policies (ownedClauses_fst _ ▸ hw.clauses) fun hne h hh => ?_
    simpa [ownedClauses_fst] using hw.cited hne h hh

theorem report_category (f : RuleFault) : f.report.category = .schemaValidation := by
  cases f <;> rfl

/-- Validation accepts the well-formed rule sets, which it leaves as they are, and refuses all
others with a report on a rule or a field. -/
theorem validate_iff (cfg : Settings) (s : RuleSet) :
    (s.validate cfg = .ok s ↔ s.IsWellFormed cfg) ∧
      ((∃ f, s.validate cfg = .error f ∧ f.report.category = .schemaValidation) ↔
        ¬ s.IsWellFormed cfg) := by
  rw [← fault?_eq_none_iff, validate]
  cases s.fault? cfg with
  | none => simp
  | some f => simp [report_category]

end Sets

end RuleSet
end Eligibility
