import Eligibility.Proofs.WellFormedness
/-!
# The fault that is reported

**Checks.**  A rule is checked in ten ways, one after the other.  Each check is stated here
by itself: on a rule, on the identifiers above it and on the domains that are fixed before
it, with no regard to what the other checks find.  A domain is fixed by a declaration, or
by the first comparison on the variable among the rules that occur earlier.

**Order.**  Rules occur a rule before its children, tree after tree.  Where rules fail
checks, validation reports the first rule that fails one, and the first check that it
fails.  Repeated identifiers and unknown clauses are reported only where no rule fails
any.

**Results.**
* `foldlM_eq_error_iff`: the fault of a fold is that of the first step with one.
* `checkTrees_eq_foldlM`: a walk checks the rules in the order in which they occur.
* `known?_of_foldlM`: what a walk has noted is what is fixed by the rules it has passed.
* `checkOccurrence_eq_error`, `checkOccurrence_eq_ok`: a step finds the first check that fails.
* `validate_reports_first_offence`: what validation reports where several rules fail checks.
-/

namespace Eligibility

/-- The fault of a fold is that of the first step with one. -/
theorem Attempt.foldlM_eq_error_iff {ε α β : Type} {f : β → α → Except ε β} {xs : List α} {b : β}
    {e : ε} : xs.foldlM f b = .error e ↔
      ∃ i x c, xs[i]? = some x ∧ (xs.take i).foldlM f b = .ok c ∧ f c x = .error e := by
  induction xs generalizing b with
  | nil => simp [pure, Except.pure]
  | cons a r ih =>
      rw [List.foldlM_cons, bind_eq_error]
      constructor
      · rintro (ha | ⟨c, hc, he⟩)
        · exact ⟨0, a, b, rfl, rfl, ha⟩
        · obtain ⟨i, x, d, hx, hd, hxe⟩ := ih.mp he
          refine ⟨i + 1, x, d, hx, ?_, hxe⟩
          rw [List.take_succ_cons, List.foldlM_cons, hc, ok_bind, hd]
      · rintro ⟨_ | i, x, d, hx, hd, hxe⟩
        · cases hx
          cases hd
          exact .inl hxe
        · rw [List.take_succ_cons, List.foldlM_cons] at hd
          obtain ⟨c, hc, hd⟩ := bind_eq_ok.mp hd
          exact .inr ⟨c, hc, ih.mpr ⟨i, x, d, hx, hd, hxe⟩⟩

/-- Where a fold gives a value, it gives one up to each item, and the step at that item another. -/
theorem Attempt.foldlM_take_of_ok {ε α β : Type} {f : β → α → Except ε β} {xs : List α} {b c : β}
    (h : xs.foldlM f b = .ok c) {i : ℕ} {x : α} (hx : xs[i]? = some x) :
    ∃ d e, (xs.take i).foldlM f b = .ok d ∧ f d x = .ok e := by
  induction xs generalizing b i with
  | nil => simp at hx
  | cons a r ih =>
      rw [List.foldlM_cons] at h
      obtain ⟨d, hd, hr⟩ := bind_eq_ok.mp h
      cases i with
      | zero =>
          cases hx
          exact ⟨b, d, rfl, hd⟩
      | succ i =>
          obtain ⟨d', e, hd', he⟩ := ih hr hx
          exact ⟨d', e, by rw [List.take_succ_cons, List.foldlM_cons, hd, ok_bind, hd'], he⟩

namespace Rule

/-- A rule where it occurs, with the identifiers of the rules above it, the outermost first. -/
structure Occurrence where
  above : List String
  rule : Rule

mutual

/-- The rules of a tree where they occur, a rule before its children. -/
def occurrences (above : List String) : Rule → List Occurrence
  | .node h cs => ⟨above, .node h cs⟩ :: occurrencesOf (above ++ [h.id]) cs

/-- The rules of several trees where they occur, tree after tree. -/
def occurrencesOf (above : List String) : List Rule → List Occurrence
  | [] => []
  | r :: rs => occurrences above r ++ occurrencesOf above rs

end

mutual

/-- The rules of a tree occur in the order of its walk. -/
theorem map_occurrences (above : List String) : ∀ r : Rule,
    (r.occurrences above).map Occurrence.rule = r.walk
  | .node h cs => by rw [occurrences, walk, List.map_cons, map_occurrencesOf _ cs]

theorem map_occurrencesOf (above : List String) : ∀ rs : List Rule,
    (occurrencesOf above rs).map Occurrence.rule = walkAll rs
  | [] => rfl
  | r :: rs => by
      rw [occurrencesOf, walkAll, List.map_append, map_occurrences above r,
        map_occurrencesOf above rs]

end

mutual

/-- Above a rule are rules that occur earlier. -/
theorem mem_above_occurrences {above : List String} : ∀ (r : Rule) {i : ℕ} {o : Occurrence},
    (r.occurrences above)[i]? = some o → ∀ a ∈ o.above,
      a ∈ above ∨ ∃ p ∈ (r.occurrences above).take i, p.rule.id = a
  | .node h cs, 0, _, ho, a, ha => by
      cases ho
      exact .inl ha
  | .node h cs, i + 1, o, ho, a, ha => by
      rw [occurrences] at ho ⊢
      rw [List.take_succ_cons]
      rcases mem_above_occurrencesOf cs ho a ha with hmem | ⟨p, hp, hpa⟩
      · rcases List.mem_append.mp hmem with hmem | hself
        · exact .inl hmem
        · exact .inr ⟨_, List.mem_cons_self, (List.mem_singleton.mp hself).symm⟩
      · exact .inr ⟨p, List.mem_cons_of_mem _ hp, hpa⟩

theorem mem_above_occurrencesOf {above : List String} : ∀ (rs : List Rule) {i : ℕ} {o : Occurrence},
    (occurrencesOf above rs)[i]? = some o → ∀ a ∈ o.above,
      a ∈ above ∨ ∃ p ∈ (occurrencesOf above rs).take i, p.rule.id = a
  | [], _, _, ho, _, _ => by simp [occurrencesOf] at ho
  | r :: rs, i, o, ho, a, ha => by
      rw [occurrencesOf] at ho ⊢
      rw [List.take_append]
      rw [List.getElem?_append] at ho
      split_ifs at ho
      · refine (mem_above_occurrences r ho a ha).imp_right ?_
        rintro ⟨p, hp, hpa⟩
        exact ⟨p, List.mem_append_left _ hp, hpa⟩
      · refine (mem_above_occurrencesOf rs ho a ha).imp_right ?_
        rintro ⟨p, hp, hpa⟩
        exact ⟨p, List.mem_append_right _ hp, hpa⟩

end

end Rule

open Rule (Occurrence)

/-- The fields that a head must have and lacks, in the order in which they are asked for. -/
def Head.lacked (h : Head) : List String :=
  ([("rule_id", decide (h.id = "")), ("variable", decide (h.subject = "")),
    ("clause_reference", decide (h.clause = "")), ("confidence", decide (h.confidence = none)),
    ("value", decide (h.operator ∉ [.and, .or, .not] ∧ h.value = none))].filter (·.2)).map (·.1)

theorem Head.missing_eq_lacked (h : Head) : h.missing = h.lacked := by
  have hcons : ∀ (name : String) (b : Bool) (r : List (String × Bool)),
      (((name, b) :: r).filter (·.2)).map (·.1) =
        (if b then [name] else []) ++ (r.filter (·.2)).map (·.1) := by
    intro name b r
    cases b <;> rfl
  have hvalue : decide (h.operator ∉ [.and, .or, .not] ∧ h.value = none) =
      (h.operator.isComparison && h.value.isNone) := by
    cases h.operator <;> cases h.value <;> rfl
  have hconfidence : decide (h.confidence = none) = h.confidence.isNone := by
    cases h.confidence <;> rfl
  simp only [Head.lacked, hcons, hvalue, hconfidence, decide_eq_true_eq, List.filter_nil,
    List.map_nil, List.append_nil, Head.missing, List.append_assoc]

/-- The checks of a rule. -/
inductive RuleCheck where
  | ancestor
  | fields
  | confidence
  | noValue
  | someChildren
  | oneChild
  | noChildren
  | operandKind
  | finiteness
  | domain
  deriving DecidableEq

namespace RuleCheck

/-- The checks in the order in which they are made. -/
def order : List RuleCheck := [ancestor, fields, confidence, noValue, someChildren, oneChild,
  noChildren, operandKind, finiteness, domain]

/-- The number of checks that are made before one. -/
def rank (c : RuleCheck) : ℕ := order.idxOf c

/-- The code under which a failed check is reported. -/
def code : RuleCheck → String
  | ancestor => "RULE_CYCLE"
  | fields => "MISSING_FIELD"
  | confidence => "INVALID_CONFIDENCE"
  | someChildren => "MISSING_CHILDREN"
  | oneChild | noChildren => "INVALID_CHILDREN"
  | noValue | operandKind | finiteness | domain => "TYPE_MISMATCH"

/-- Whether a rule fails a check where it occurs, the domains of some variables being fixed. -/
def Fails (fixed? : String → Option ValueKind) (o : Occurrence) : RuleCheck → Prop
  | ancestor => o.rule.id ∈ o.above
  | fields => o.rule.head.lacked ≠ []
  | confidence => ∃ x, o.rule.head.confidence = some x ∧
      ¬ ∃ q, x.value? = some q ∧ 0 ≤ q ∧ q ≤ 1
  | noValue => o.rule.head.operator ∈ [.and, .or, .not] ∧ o.rule.head.value ≠ none
  | someChildren => o.rule.head.operator ∈ [.and, .or, .not] ∧ o.rule.children = []
  | oneChild => o.rule.head.operator = .not ∧ o.rule.children.length ≠ 1
  | noChildren => o.rule.head.operator ∉ [.and, .or, .not] ∧ o.rule.children ≠ []
  | operandKind => o.rule.head.operator ∉ [.and, .or, .not] ∧ ∃ v, o.rule.head.value = some v ∧
      ¬ ((o.rule.head.operator ∈ [.lt, .lte, .gt, .gte] → v.kind = .numeric) ∧
        (o.rule.head.operator ∈ [.isIn, .notIn] → v.kind = .stringSet) ∧
        (o.rule.head.operator ∈ [.eq, .neq] → v.kind ≠ .stringSet))
  | finiteness => o.rule.head.operator ∉ [.and, .or, .not] ∧
      ∃ x, o.rule.head.value = some (.number x) ∧ x.isFinite = false
  | domain => ∃ k, o.rule.head.domain? = some k ∧
      ∃ l, fixed? o.rule.head.subject = some l ∧ l ≠ k

/-- Whether an operand is no infinite number. -/
def operandIsFinite : Operand → Bool
  | .number x => x.isFinite
  | _ => true

instance (fixed? : String → Option ValueKind) (o : Occurrence) :
    ∀ c : RuleCheck, Decidable (c.Fails fixed? o)
  | ancestor => inferInstanceAs (Decidable (o.rule.id ∈ o.above))
  | fields => inferInstanceAs (Decidable (o.rule.head.lacked ≠ []))
  | confidence =>
      have hiff : (∃ x ∈ o.rule.head.confidence, Head.isConfidence x = false) ↔
          confidence.Fails fixed? o :=
        exists_congr fun _ => and_congr_right' (by rw [← Bool.not_eq_true, Head.isConfidence_iff])
      decidable_of_iff _ hiff
  | noValue => inferInstanceAs (Decidable (_ ∧ o.rule.head.value ≠ none))
  | someChildren => inferInstanceAs (Decidable (_ ∧ o.rule.children = []))
  | oneChild => inferInstanceAs (Decidable (_ ∧ o.rule.children.length ≠ 1))
  | noChildren => inferInstanceAs (Decidable (_ ∧ o.rule.children ≠ []))
  | operandKind => inferInstanceAs (Decidable (_ ∧ ∃ v ∈ o.rule.head.value, ¬ (_ ∧ _ ∧ _)))
  | finiteness =>
      have hiff : (o.rule.head.operator ∉ [.and, .or, .not] ∧
          ∃ v ∈ o.rule.head.value, operandIsFinite v = false) ↔
            finiteness.Fails fixed? o := by
        refine and_congr_right' ⟨?_, fun ⟨x, hv, hx⟩ => ⟨_, hv, hx⟩⟩
        rintro ⟨v, hv, hx⟩
        cases v with
        | number x => exact ⟨x, hv, hx⟩
        | _ => cases hx
      decidable_of_iff _ hiff
  | domain => inferInstanceAs (Decidable
      (∃ k ∈ o.rule.head.domain?, ∃ l ∈ fixed? o.rule.head.subject, l ≠ k))

/-- Whether a rule passes the first `n` checks. -/
def PassesBelow (fixed? : String → Option ValueKind) (o : Occurrence) (n : ℕ) : Prop :=
  ∀ d : RuleCheck, d.rank < n → ¬ d.Fails fixed? o

/-- The check that a rule fails first, where it fails one. -/
structure IsFirst (fixed? : String → Option ValueKind) (o : Occurrence) (c : RuleCheck) :
    Prop where
  fails : c.Fails fixed? o
  passes : PassesBelow fixed? o c.rank

theorem rank_injective : Function.Injective rank := by
  intro c d h
  cases c <;> cases d <;> first | rfl | exact absurd h (by decide)

theorem rank_lt (c : RuleCheck) : c.rank < 10 := by cases c <;> decide

section Stages

variable {fixed? : String → Option ValueKind} {o : Occurrence} {c : RuleCheck}

theorem passesBelow_zero : PassesBelow fixed? o 0 := fun _ h => absurd h (Nat.not_lt_zero _)

theorem PassesBelow.succ (h : PassesBelow fixed? o c.rank) (hc : ¬ c.Fails fixed? o) :
    PassesBelow fixed? o (c.rank + 1) := by
  intro d hd
  rcases Nat.lt_succ_iff_lt_or_eq.mp hd with hd | hd
  · exact h d hd
  · rwa [rank_injective hd]

/-- A fault that reports a failed check: under the code of the check, with the identifier of the
rule if it has one, and with all the fields that are missing. -/
structure IsReported (o : Occurrence) (c : RuleCheck) (f : RuleFault) : Prop where
  code : f.report.code = c.code
  rule : Json.lookup "rule_id" f.report.details =
    if o.rule.id = "" then none else some (.str o.rule.id)
  missing : c = .fields →
    Json.lookup "missing_fields" f.report.details = some (Json.strs o.rule.head.lacked)

/-- Whether an outcome of the first `n` checks is right: no fault where the rule passes them all,
and the fault of the first check that it fails where it does not. -/
def Settles (fixed? : String → Option ValueKind) (o : Occurrence) (n : ℕ) :
    Option RuleFault → Prop
  | none => PassesBelow fixed? o n
  | some f => ∃ c : RuleCheck, c.IsFirst fixed? o ∧ c.IsReported o f

end Stages

section Reports

variable {o : Occurrence} {c : RuleCheck} {f : RuleFault}

theorem lookup_append {k : String} (ds es : List (String × Json)) :
    Json.lookup k (ds ++ es) = (Json.lookup k ds).or (Json.lookup k es) := by
  induction ds with
  | nil => simp [Json.lookup]
  | cons d r ih =>
      obtain ⟨k', v⟩ := d
      rw [List.cons_append, Json.lookup, Json.lookup, ih]
      split_ifs <;> rfl

/-- A detail that is added is found, unless its key is taken. -/
theorem lookup_addDetail {k : String} {ds : List (String × Json)} (v : Json)
    (hk : Json.lookup k ds = none) : Json.lookup k (Report.addDetail k v ds) = some v := by
  rw [Report.addDetail, hk, lookup_append, hk]
  simp [Json.lookup]

/-- A detail that is there stays when another one is added. -/
theorem lookup_addDetail_of_some {k k' : String} {ds : List (String × Json)} {v : Json} (w : Json)
    (hv : Json.lookup k ds = some v) : Json.lookup k (Report.addDetail k' w ds) = some v := by
  unfold Report.addDetail
  split
  · exact hv
  · rw [lookup_append, hv, Option.some_or]

/-- A report on a rule with an identifier has that identifier. -/
theorem isReported_of_onRule {message code field : String} {details : List (String × Json)}
    (hf : f.report = RuleFault.onRule message code o.rule.id field details) (hcode : code = c.code)
    (hid : o.rule.id ≠ "") (hdetails : Json.lookup "rule_id" details = none) (hc : c ≠ .fields) :
    c.IsReported o f := by
  refine ⟨?_, ?_, fun h => absurd h hc⟩
  · have hne : code ≠ "" := by
      rw [hcode]
      cases c <;> decide
    rw [hf, RuleFault.onRule, Report.schema, Report.codeOr, if_neg hne, hcode]
  · rw [hf, if_neg hid]
    exact lookup_addDetail_of_some _ (lookup_addDetail _ hdetails)

end Reports

end RuleCheck

namespace RuleSet
open RuleCheck

/-- The domains after a rule where it occurs, unless it fails a check. -/
def checkOccurrence (ds : Domains) (o : Occurrence) : Except RuleFault Domains :=
  checkHead o.above ds o.rule.head o.rule.children.length

mutual

/-- A walk of a tree checks its rules in the order in which they occur. -/
theorem checkTree_eq_foldlM (above : List String) : ∀ (r : Rule) (ds : Domains),
    checkTree above ds r = (r.occurrences above).foldlM checkOccurrence ds
  | .node h cs, ds => by
      have hhead : checkOccurrence ds ⟨above, .node h cs⟩ = checkHead above ds h cs.length := rfl
      rw [checkTree, Rule.occurrences, List.foldlM_cons, hhead]
      cases checkHead above ds h cs.length with
      | error f => rfl
      | ok es => exact checkTrees_eq_foldlM (above ++ [h.id]) cs es

theorem checkTrees_eq_foldlM (above : List String) : ∀ (rs : List Rule) (ds : Domains),
    checkTrees above ds rs = (Rule.occurrencesOf above rs).foldlM checkOccurrence ds
  | [], ds => rfl
  | r :: rs, ds => by
      rw [checkTrees, Rule.occurrencesOf, List.foldlM_append, checkTree_eq_foldlM above r ds]
      cases (r.occurrences above).foldlM checkOccurrence ds with
      | error f => rfl
      | ok es => exact checkTrees_eq_foldlM above rs es

end

section Steps

variable {ds es : Domains} {o : Occurrence} {f : RuleFault}

/-- The domain that the first of some rules gives to a variable. -/
def firstDomain? (os : List Occurrence) (x : String) : Option ValueKind :=
  os.findSome? fun o => if x = o.rule.head.subject then o.rule.head.domain? else none

/-- What a walk has noted of a variable is what was known of it, or else what the first of the
rules on it has fixed. -/
theorem known?_of_foldlM {os : List Occurrence} (hok : os.foldlM checkOccurrence ds = .ok es)
    (x : String) : known? es x = (known? ds x).or (firstDomain? os x) := by
  induction os generalizing ds with
  | nil =>
      cases hok
      simp [firstDomain?]
  | cons o r ih =>
      rw [List.foldlM_cons] at hok
      obtain ⟨ds', hds', hok⟩ := Attempt.bind_eq_ok.mp hok
      have hnoted := (noteDomain_eq_ok (noteDomain_of_checkHead hds')).2 x
      have hcons : firstDomain? (o :: r) x =
          (if x = o.rule.head.subject then o.rule.head.domain? else none).or
            (firstDomain? r x) := by
        rw [firstDomain?, List.findSome?_cons]
        cases (if x = o.rule.head.subject then o.rule.head.domain? else none) <;> rfl
      rw [ih hok, hnoted, Option.or_assoc, hcons]

section Heads

variable {fixed? : String → Option ValueKind}

/-- The checks of the structure of a logical rule. -/
theorem settles_logicalFault? (hid : o.rule.id ≠ "")
    (ho : o.rule.head.operator ∈ [.and, .or, .not]) (hp : PassesBelow fixed? o noValue.rank) :
    Settles fixed? o domain.rank
      (o.rule.head.logicalFault? o.rule.children.length) := by
  unfold Head.logicalFault?
  split
  · next hv =>
    exact ⟨noValue, ⟨⟨ho, Option.isSome_iff_ne_none.mp hv⟩, hp⟩,
      isReported_of_onRule rfl rfl hid rfl (by decide)⟩
  next hv =>
  have hp : PassesBelow fixed? o someChildren.rank := hp.succ fun h => h.2 (by simpa using hv)
  split
  · next hn =>
    exact ⟨someChildren, ⟨⟨ho, by simpa using hn⟩, hp⟩,
      isReported_of_onRule rfl rfl hid rfl (by decide)⟩
  next hn =>
  have hp : PassesBelow fixed? o oneChild.rank := hp.succ fun h => hn (by simp [h.2])
  split
  · next hnot => exact ⟨oneChild, ⟨hnot, hp⟩, isReported_of_onRule rfl rfl hid rfl (by decide)⟩
  next hnot =>
  -- the checks of comparisons do not concern a logical rule
  have hp : PassesBelow fixed? o noChildren.rank := hp.succ hnot
  have hp : PassesBelow fixed? o operandKind.rank := hp.succ fun h => h.1 ho
  have hp : PassesBelow fixed? o finiteness.rank := hp.succ fun h => h.1 ho
  exact hp.succ fun h => h.1 ho

/-- The checks of the operand of a comparison. -/
theorem settles_operandFault? {v : Operand} (hid : o.rule.id ≠ "")
    (ho : o.rule.head.operator ∉ [.and, .or, .not]) (hv : o.rule.head.value = some v)
    (hp : PassesBelow fixed? o operandKind.rank) :
    Settles fixed? o domain.rank (o.rule.head.operandFault? v) := by
  have hkind : operandKind.Fails fixed? o ↔ Head.fits o.rule.head.operator v.kind = false := by
    rw [← Bool.not_eq_true, Head.fits_iff ho]
    constructor
    · rintro ⟨-, w, hw, hnot⟩
      cases hv.symm.trans hw
      exact hnot
    · exact fun hnot => ⟨ho, v, hv, hnot⟩
  unfold Head.operandFault?
  split
  · next hfit =>
    exact ⟨operandKind, ⟨hkind.mpr (by simpa using hfit), hp⟩,
      isReported_of_onRule rfl rfl hid rfl (by decide)⟩
  next hfit =>
  have hp : PassesBelow fixed? o finiteness.rank :=
    hp.succ fun h => hfit (by simpa using hkind.mp h)
  split
  · next x =>
    cases hx : x.isFinite with
    | true =>
        refine hp.succ ?_
        rintro ⟨-, y, hy, hinfinite⟩
        cases hv.symm.trans hy
        exact absurd hx (by simp [hinfinite])
    | false =>
        exact ⟨finiteness, ⟨⟨ho, x, hv, hx⟩, hp⟩,
          isReported_of_onRule rfl rfl hid rfl (by decide)⟩
  · next hnumber =>
    refine hp.succ ?_
    rintro ⟨-, y, hy, -⟩
    exact hnumber y (Option.some.inj (hv.symm.trans hy))

/-- The checks of the structure and the operand of a comparison. -/
theorem settles_comparisonFault? {v : Operand} (hid : o.rule.id ≠ "")
    (ho : o.rule.head.operator ∉ [.and, .or, .not]) (hv : o.rule.head.value = some v)
    (hp : PassesBelow fixed? o noValue.rank) :
    Settles fixed? o domain.rank (o.rule.head.comparisonFault? o.rule.children.length) := by
  have hp : PassesBelow fixed? o someChildren.rank := hp.succ fun h => ho h.1
  have hp : PassesBelow fixed? o oneChild.rank := hp.succ fun h => ho h.1
  have hp : PassesBelow fixed? o noChildren.rank := hp.succ fun h => ho (by simp [h.1])
  unfold Head.comparisonFault?
  split
  · next hn =>
    exact ⟨noChildren, ⟨⟨ho, by simpa using hn⟩, hp⟩,
      isReported_of_onRule rfl rfl hid rfl (by decide)⟩
  · next hn =>
    have hp : PassesBelow fixed? o operandKind.rank := hp.succ fun h => h.2 (by simpa using hn)
    rw [hv]
    exact settles_operandFault? hid ho hv hp

/-- The report on missing fields names all of them, and the rule if it has an identifier. -/
theorem isReported_missingFields (o : Occurrence) :
    fields.IsReported o (.missingFields o.rule.id o.rule.head.lacked) := by
  refine ⟨rfl, ?_, fun _ => ?_⟩
  all_goals
    rw [RuleFault.report, Report.schema]
    split_ifs with hid
    all_goals cases o.rule.head.lacked <;> rfl

/-- All checks of a rule below a path, that of its domain apart. -/
theorem settles_fault? (habove : o.rule.id ∉ o.above) :
    Settles fixed? o domain.rank (o.rule.head.fault? o.rule.children.length) := by
  have hp : PassesBelow fixed? o fields.rank :=
    PassesBelow.succ (c := ancestor) passesBelow_zero habove
  unfold Head.fault?
  rw [Head.missing_eq_lacked]
  split
  · next hlacked =>
    have hne : o.rule.head.lacked ≠ [] := by simpa using hlacked
    exact ⟨fields, ⟨hne, hp⟩, isReported_missingFields o⟩
  next hlacked =>
  have hp : PassesBelow fixed? o confidence.rank := hp.succ fun h => h (by simpa using hlacked)
  obtain ⟨hid, -, -, x, hx⟩ : _ ∧ _ ∧ _ ∧ _ :=
    Head.missing_eq_nil (by rw [Head.missing_eq_lacked]; simpa using hlacked)
  have hconfidence : confidence.Fails fixed? o ↔ Head.isConfidence x = false := by
    rw [← Bool.not_eq_true, Head.isConfidence_iff]
    constructor
    · rintro ⟨y, hy, hnot⟩
      cases hx.symm.trans hy
      exact hnot
    · exact fun hnot => ⟨x, hx, hnot⟩
  rw [hx]
  dsimp only
  split
  · next hout =>
    exact ⟨confidence, ⟨hconfidence.mpr (by simpa using hout), hp⟩,
      isReported_of_onRule rfl rfl hid rfl (by decide)⟩
  next hwithin =>
  have hp : PassesBelow fixed? o noValue.rank :=
    hp.succ fun h => hwithin (by simpa using hconfidence.mp h)
  split
  · next ho => exact settles_logicalFault? hid (Head.isLogical_iff.mp ho) hp
  next ho =>
  have ho : o.rule.head.operator ∉ [.and, .or, .not] :=
    Head.isLogical_eq_false_iff.mp (by simpa using ho)
  obtain ⟨v, hv⟩ : ∃ v, o.rule.head.value = some v := by
    refine Option.ne_none_iff_exists'.mp fun hnone => hlacked ?_
    simp [Head.lacked, ho, hnone]
  exact settles_comparisonFault? hid ho hv hp

theorem noteDomain_eq_error {h : Head} (he : noteDomain ds h = .error f) :
    ∃ known origin kind, f = .domain h.id h.subject known origin kind := by
  unfold noteDomain at he
  split at he
  · cases he
  split at he
  · cases he
  split at he
  · cases he
  split at he
  · cases he
  · cases he
    exact ⟨_, _, _, rfl⟩

/-- A step finds the first check that fails. -/
theorem checkOccurrence_eq_error (hfixed : ∀ x, known? ds x = fixed? x) (habove : "" ∉ o.above)
    (hf : checkOccurrence ds o = .error f) :
    ∃ c : RuleCheck, c.IsFirst fixed? o ∧ c.IsReported o f := by
  unfold checkOccurrence checkHead at hf
  split at hf
  · next hcycle =>
    cases hf
    exact ⟨ancestor, ⟨hcycle.2, passesBelow_zero⟩,
      isReported_of_onRule rfl rfl hcycle.1 rfl (by decide)⟩
  next hcycle =>
  have hself : o.rule.id ∉ o.above := by
    intro hmem
    by_cases hid : o.rule.id = ""
    · exact habove (hid ▸ hmem)
    · exact hcycle ⟨hid, hmem⟩
  have hsettles : Settles fixed? o domain.rank (o.rule.head.fault? o.rule.children.length) :=
    settles_fault? hself
  split at hf
  · next f' hf' =>
    cases hf
    rwa [hf'] at hsettles
  next hnone =>
  rw [hnone] at hsettles
  have hid : o.rule.id ≠ "" := (Head.fault?_eq_none_iff.mp hnone).id_ne
  refine ⟨domain, ⟨?_, hsettles⟩, ?_⟩
  · by_contra hagrees
    have hknown : ∀ k, o.rule.head.domain? = some k →
        ∀ l, known? ds o.rule.head.subject = some l → l = k := by
      intro k hk l hl
      by_contra hne
      exact hagrees ⟨k, hk, l, (hfixed _).symm.trans hl, hne⟩
    obtain ⟨es, hes⟩ := exists_noteDomain hknown
    cases hf.symm.trans hes
  · obtain ⟨known, origin, kind, rfl⟩ := noteDomain_eq_error hf
    exact isReported_of_onRule rfl rfl hid rfl (by decide)

/-- A step passes where no check fails. -/
theorem checkOccurrence_eq_ok (hfixed : ∀ x, known? ds x = fixed? x)
    (hok : checkOccurrence ds o = .ok es) (c : RuleCheck) : ¬ c.Fails fixed? o := by
  have hnone := checkHead_eq_ok hok
  have hself : o.rule.id ∉ o.above := by
    intro hmem
    rw [checkOccurrence, checkHead, if_pos ⟨(Head.fault?_eq_none_iff.mp hnone).id_ne, hmem⟩] at hok
    cases hok
  have hsettles : Settles fixed? o domain.rank (o.rule.head.fault? o.rule.children.length) :=
    settles_fault? hself
  rw [hnone] at hsettles
  have hp : PassesBelow fixed? o (domain.rank + 1) := by
    refine PassesBelow.succ hsettles ?_
    rintro ⟨k, hk, l, hl, hne⟩
    exact hne ((noteDomain_eq_ok (noteDomain_of_checkHead hok)).1 k hk l ((hfixed _).trans hl))
  exact hp c c.rank_lt

end Heads

end Steps

section Offences

/-- The rules of a rule set where they occur. -/
def occurrences (s : RuleSet) : List Occurrence := Rule.occurrencesOf [] s.rules

/-- The domain of a variable that is fixed before some rules are passed, or by the first of them
that compares it. -/
def fixed? (s : RuleSet) (passed : List Occurrence) (x : String) : Option ValueKind :=
  (s.domains.lookup x).or (firstDomain? passed x)

/-- Whether the `i`-th rule fails a check, with the domains that the rules before it fix. -/
def Offends (s : RuleSet) (i : ℕ) (c : RuleCheck) : Prop :=
  ∃ o, s.occurrences[i]? = some o ∧ c.Fails (s.fixed? (s.occurrences.take i)) o

/-- The first rule that fails a check, and the first check that it fails. -/
structure IsFirstOffence (s : RuleSet) (i : ℕ) (c : RuleCheck) : Prop where
  offends : s.Offends i c
  rules : ∀ j d, j < i → ¬ s.Offends j d
  checks : ∀ d : RuleCheck, d.rank < c.rank → ¬ s.Offends i d

instance (s : RuleSet) (i : ℕ) (c : RuleCheck) : Decidable (s.Offends i c) :=
  inferInstanceAs (Decidable (∃ o ∈ s.occurrences[i]?, c.Fails (s.fixed? (s.occurrences.take i)) o))

variable {s : RuleSet} {i j : ℕ} {c d : RuleCheck}

/-- There is at most one first offence. -/
theorem IsFirstOffence.unique (hc : s.IsFirstOffence i c) (hd : s.IsFirstOffence j d) :
    i = j ∧ c = d := by
  have hij : i = j := by
    rcases Nat.lt_trichotomy i j with hlt | heq | hgt
    · exact absurd hc.offends (hd.rules i c hlt)
    · exact heq
    · exact absurd hd.offends (hc.rules j d hgt)
  subst hij
  refine ⟨rfl, rank_injective ?_⟩
  rcases Nat.lt_trichotomy c.rank d.rank with hlt | heq | hgt
  · exact absurd hc.offends (hd.checks c hlt)
  · exact heq
  · exact absurd hd.offends (hc.checks d hgt)

/-- The domains that a rule set declares, as a walk starts with them. -/
def declared (s : RuleSet) : Domains := s.domains.map fun d => (d.1, d.2, "declared")

/-- A walk up to a rule has noted the domains that are fixed before that rule. -/
theorem known?_of_walk {ds : Domains}
    (hok : (s.occurrences.take i).foldlM checkOccurrence s.declared = .ok ds) (x : String) :
    known? ds x = s.fixed? (s.occurrences.take i) x := by
  rw [known?_of_foldlM hok, declared, known?_declared, fixed?]

/-- All rules above one that a walk comes to have identifiers. -/
theorem empty_not_mem_above {ds : Domains} {o : Occurrence}
    (hok : (s.occurrences.take i).foldlM checkOccurrence s.declared = .ok ds)
    (ho : s.occurrences[i]? = some o) : "" ∉ o.above := by
  intro hmem
  rcases Rule.mem_above_occurrencesOf s.rules ho _ hmem with hnil | ⟨p, hp, hid⟩
  · simp at hnil
  · obtain ⟨j, hj⟩ := List.mem_iff_getElem?.mp hp
    obtain ⟨_, _, _, hpass⟩ := Attempt.foldlM_take_of_ok hok hj
    exact (Head.fault?_eq_none_iff.mp (checkHead_eq_ok hpass)).id_ne hid

/-- A walk that passes has come upon no offence. -/
theorem not_offends_of_walk {n : ℕ} {ds : Domains}
    (hok : (s.occurrences.take n).foldlM checkOccurrence s.declared = .ok ds) (hi : i < n) :
    ¬ s.Offends i c := by
  rintro ⟨o, ho, hfails⟩
  have hget : (s.occurrences.take n)[i]? = some o := by rw [List.getElem?_take_of_lt hi, ho]
  obtain ⟨es, es', hes, hpass⟩ := Attempt.foldlM_take_of_ok hok hget
  rw [List.take_take, Nat.min_eq_left (Nat.le_of_lt hi)] at hes
  exact checkOccurrence_eq_ok (known?_of_walk hes) hpass c hfails

/-- A walk that fails has come upon the first offence. -/
theorem isFirstOffence_of_walk {f : RuleFault}
    (he : s.occurrences.foldlM checkOccurrence s.declared = .error f) :
    ∃ i c o, s.IsFirstOffence i c ∧ s.occurrences[i]? = some o ∧ c.IsReported o f := by
  obtain ⟨i, o, ds, ho, hds, hf⟩ := Attempt.foldlM_eq_error_iff.mp he
  obtain ⟨c, hfirst, hreported⟩ :=
    checkOccurrence_eq_error (known?_of_walk hds) (empty_not_mem_above hds ho) hf
  refine ⟨i, c, o, ⟨⟨o, ho, hfirst.fails⟩, fun j d hj => not_offends_of_walk hds hj, ?_⟩, ho,
    hreported⟩
  rintro d hd ⟨p, hp, hfails⟩
  cases ho.symm.trans hp
  exact hfirst.passes d hd hfails

end Offences

section Reporting

/-- The codes of faults in the identifiers of rules, policies and clauses, and in what rules
cite. -/
def identityCodes : List String :=
  ["DUPLICATE_RULE_ID", "DUPLICATE_POLICY_ID", "DUPLICATE_CLAUSE_ID", "UNRESOLVED_CLAUSE"]

theorem documentFault?_code {s : RuleSet} {f : RuleFault} (hf : s.documentFault? = some f) :
    f.report.code ∈ identityCodes := by
  unfold documentFault? at hf
  split_ifs at hf
  split at hf
  · cases hf
    exact (by decide : "DUPLICATE_POLICY_ID" ∈ identityCodes)
  split at hf
  · cases hf
    exact (by decide : "DUPLICATE_CLAUSE_ID" ∈ identityCodes)
  obtain ⟨h, -, rfl⟩ := Option.map_eq_some_iff.mp hf
  exact (by decide : "UNRESOLVED_CLAUSE" ∈ identityCodes)

variable {cfg : Settings} {s : RuleSet}

/-- What validation says of a rule set of a supported version with scalar domains: the fault of
its walk, or else one in its identifiers or none. -/
theorem validate_cases (hversion : s.version ∈ cfg.supportedVersions)
    (hdomains : ∀ d ∈ s.domains, d.2 ≠ .stringSet) :
    (∃ f, s.occurrences.foldlM checkOccurrence s.declared = .error f ∧
      s.validate cfg = .error f) ∨
    ((∃ ds, s.occurrences.foldlM checkOccurrence s.declared = .ok ds) ∧
      (s.validate cfg = .ok s ∨
        ∃ f, s.validate cfg = .error f ∧ f.report.code ∈ identityCodes)) := by
  have hwalk : checkTrees [] (s.domains.map fun d => (d.1, d.2, "declared")) s.rules =
      s.occurrences.foldlM checkOccurrence s.declared := checkTrees_eq_foldlM [] s.rules _
  rw [validate, fault?, if_neg (by simpa using hversion), domainFault?_eq_none_iff.mpr hdomains]
  dsimp only
  rw [hwalk]
  cases s.occurrences.foldlM checkOccurrence s.declared with
  | error f => exact .inl ⟨f, rfl, rfl⟩
  | ok ds =>
      refine .inr ⟨⟨ds, rfl⟩, ?_⟩
      dsimp only
      cases hid : repeated? (s.heads.map Head.id) with
      | some r => exact .inr ⟨_, rfl, (by decide : "DUPLICATE_RULE_ID" ∈ identityCodes)⟩
      | none =>
          dsimp only
          cases hdocument : s.documentFault? with
          | none => exact .inl rfl
          | some f => exact .inr ⟨f, rfl, documentFault?_code hdocument⟩

/-- Where rules fail checks, validation reports the first of them and the first check that it
fails, by the code of the check and the identifier of the rule, and with all fields that are
missing.  Only where no rule fails a check it reports repeated identifiers and unknown clauses. -/
theorem validate_reports_first_offence (hversion : s.version ∈ cfg.supportedVersions)
    (hdomains : ∀ d ∈ s.domains, d.2 ≠ .stringSet) :
    (∀ i c, s.IsFirstOffence i c → ∃ o f, s.occurrences[i]? = some o ∧
      s.validate cfg = .error f ∧ f.report.category = .schemaValidation ∧ c.IsReported o f) ∧
    ((∃ i c, s.Offends i c) → ∃ i c, s.IsFirstOffence i c) ∧
    (∀ f, s.validate cfg = .error f → f.report.code ∈ identityCodes → ∀ i c, ¬ s.Offends i c) ∧
    ((∀ i c, ¬ s.Offends i c) → s.validate cfg = .ok s ∨
      ∃ f, s.validate cfg = .error f ∧ f.report.code ∈ identityCodes) := by
  rcases validate_cases hversion hdomains with ⟨f, hwalk, hf⟩ | ⟨⟨ds, hwalk⟩, hvalid⟩
  · obtain ⟨i, c, o, hfirst, ho, hreported⟩ := isFirstOffence_of_walk hwalk
    refine ⟨fun j d hd => ?_, fun _ => ⟨i, c, hfirst⟩, fun f' hf' hcode => ?_, fun hnone => ?_⟩
    · obtain ⟨rfl, rfl⟩ := hfirst.unique hd
      exact ⟨o, f, ho, hf, report_category f, hreported⟩
    · cases hf.symm.trans hf'
      rw [hreported.code] at hcode
      exact absurd hcode (by cases c <;> decide)
    · exact absurd hfirst.offends (hnone i c)
  · have hnone : ∀ i c, ¬ s.Offends i c := by
      rintro i c hoffends
      have hi : i < s.occurrences.length := by
        obtain ⟨o, ho, -⟩ := hoffends
        exact (List.getElem?_eq_some_iff.mp ho).1
      exact not_offends_of_walk (by rw [List.take_length]; exact hwalk) hi hoffends
    exact ⟨fun i c hc => absurd hc.offends (hnone i c),
      fun ⟨i, c, hc⟩ => absurd hc (hnone i c), fun _ _ _ => hnone, fun _ => hvalid⟩

/-- Two trees in which much is wrong: the third rule has the identifier of the rule above it,
lacks its clause and has an operand of another domain than the rule before it; the fourth is a
comparison without a value; and one identifier is used twice. -/
def tangled : RuleSet where
  rules :=
    [.node ⟨"need", "_", .and, none, "c1", some Number.one, none⟩
      [.node ⟨"age", "age", .gte, some (.number (.finite 65)), "c1", some Number.one, none⟩ [],
       .node ⟨"need", "age", .eq, some (.text "old"), "", some Number.one, none⟩ []],
     .node ⟨"fee", "fee", .lt, none, "", some Number.one, none⟩ []]
  domains := [("fee", .numeric)]

/-- In the example the cycle is reported, and none of the other faults. -/
theorem validate_reports_first_offence_tangled :
    tangled.version ∈ Settings.standard.supportedVersions ∧
      (∀ d ∈ tangled.domains, d.2 ≠ .stringSet) ∧ tangled.IsFirstOffence 2 .ancestor ∧
      tangled.Offends 2 .fields ∧ tangled.Offends 2 .domain ∧ tangled.Offends 3 .fields ∧
      ∃ f, tangled.validate Settings.standard = .error f ∧ f.report.code = "RULE_CYCLE" ∧
        Json.lookup "rule_id" f.report.details = some (.str "need") := by
  have hversion : tangled.version ∈ Settings.standard.supportedVersions := by decide
  have hdomains : ∀ d ∈ tangled.domains, d.2 ≠ .stringSet := by decide
  have hfirst : tangled.IsFirstOffence 2 .ancestor := by
    have hearlier : ∀ j < 2, ∀ d ∈ RuleCheck.order, ¬ tangled.Offends j d := by decide +kernel
    refine ⟨by decide +kernel, fun j d hj => hearlier j hj d (by cases d <;> decide), ?_⟩
    intro d hd
    exact absurd hd (by simp [RuleCheck.rank, RuleCheck.order])
  obtain ⟨o, f, ho, hf, -, hreported⟩ :=
    (validate_reports_first_offence hversion hdomains).1 2 .ancestor hfirst
  cases ho
  exact ⟨hversion, hdomains, hfirst, by decide +kernel, by decide +kernel, by decide +kernel, f, hf,
    hreported.code, hreported.rule⟩

end Reporting

end RuleSet
end Eligibility
