import Eligibility.Proofs.RoundTrip
/-!
# Parts of rules and the tokens they are read from

**Reading.**  What stands in a comparison or an annotation is read from tokens none of which is a
parenthesis.  It does not depend on what stands behind them, except for the next token: a comma or
a brace there is taken, too.

**Numbers.**  The numbers of what is read are those of tokens.

**Results.**
* `readsFlat_comparison`, `readsFlat_literal`: the parts of a comparison.
* `readsFlat_annotation`: an annotation, or none.
-/

namespace Eligibility
namespace Rule

namespace Parser

/-- Whether tokens have no parenthesis among them. -/
def IsFlat (ts : List Token) : Prop := ∀ t ∈ ts, t.lexeme ≠ mark '(' ∧ t.lexeme ≠ mark ')'

variable {α : Type} {stop : Nat} {ts us : List Token}

section Steps

theorem next_eq_ok {t : Token} : next stop ts = .ok (t, us) ↔ ts = t :: us := by
  cases ts with
  | nil => simp [next]
  | cons u r => simp [next]

theorem expect_eq_ok {what : List Char} :
    expect stop what ts = .ok us ↔ ∃ t, ts = t :: us ∧ t.text = what ∧ t.kind ≠ .quoted := by
  cases ts with
  | nil => simp [expect, next]
  | cons t r =>
      simp only [expect, next]
      split
      · next h => simp [h]
      · next h =>
        simp only [refuse, reduceCtorEq, List.cons.injEq, false_iff, not_exists, not_and]
        rintro u ⟨rfl, rfl⟩ htext
        exact fun hkind => h ⟨htext, hkind⟩

theorem atMark_congr {c : Char} {vs : List Token} (h : vs.head? = us.head?) :
    atMark c vs = atMark c us := by
  cases vs <;> cases us <;> simp_all [atMark]

theorem atMark_of_lexeme {t : Token} {c : Char} (h : t.lexeme = mark c) :
    atMark c (t :: ts) = true := by
  simp only [Token.lexeme, mark, Prod.mk.injEq] at h
  simp [atMark, h]

theorem exists_of_atMark {c : Char} (h : atMark c ts = true) :
    ∃ t r, ts = t :: r ∧ t.lexeme = mark c := by
  cases ts with
  | nil => cases h
  | cons t r =>
      simp only [atMark, Bool.and_eq_true, decide_eq_true_eq] at h
      exact ⟨t, r, rfl, by rw [Token.lexeme, h.1, h.2, mark]⟩

theorem head?_append_congr {l vs : List Token} (h : vs.head? = us.head?) :
    (l ++ vs).head? = (l ++ us).head? := by
  cases l with
  | nil => exact h
  | cons t r => rfl

end Steps

section Flat

/-- A reader takes something with a property from the first of some tokens; these have no
parenthesis among them, and it is read from them whatever follows, as long as the next token is the
same. -/
def TakesFlat (p : List Token → Step α) (P : List Token → α → Prop) (ts us : List Token) (a : α) :
    Prop :=
  ∃ pre, ts = pre ++ us ∧ IsFlat pre ∧ P pre a ∧
    ∀ vs, vs.head? = us.head? → p (pre ++ vs) = .ok (a, vs)

/-- All that a reader reads it takes from tokens without parenthesis. -/
def ReadsFlat (p : List Token → Step α) (P : List Token → α → Prop) : Prop :=
  ∀ ts us a, p ts = .ok (a, us) → TakesFlat p P ts us a

/-- Whether a number is that of a token. -/
def IsStated (ts : List Token) (x : Number) : Prop := ∃ t ∈ ts, t.kind = .number ∧ numberOf t = x

theorem isFlat_nil : IsFlat [] := List.forall_mem_nil _

theorem IsFlat.cons {t : Token} (ho : t.lexeme ≠ mark '(') (hc : t.lexeme ≠ mark ')')
    (h : IsFlat ts) : IsFlat (t :: ts) := List.forall_mem_cons.mpr ⟨⟨ho, hc⟩, h⟩

theorem IsFlat.append (h : IsFlat ts) (h' : IsFlat us) : IsFlat (ts ++ us) :=
  List.forall_mem_append.mpr ⟨h, h'⟩

theorem IsFlat.cons_of_kind {t : Token} (ht : t.kind ≠ .mark) (h : IsFlat ts) : IsFlat (t :: ts) :=
  h.cons (fun he => ht (congrArg Prod.fst he)) fun he => ht (congrArg Prod.fst he)

theorem IsFlat.cons_of_text {t : Token} (ht : t.text ≠ ['('] ∧ t.text ≠ [')']) (h : IsFlat ts) :
    IsFlat (t :: ts) :=
  h.cons (fun he => ht.1 (congrArg Prod.snd he)) fun he => ht.2 (congrArg Prod.snd he)

/-- What is read from one token whatever follows. -/
theorem takesFlat_token {p : List Token → Step α} {P : List Token → α → Prop} {t : Token} {a : α}
    (ht : t.kind ≠ .mark) (hP : P [t] a) (hp : ∀ vs, p (t :: vs) = .ok (a, vs)) :
    TakesFlat p P (t :: us) us a :=
  ⟨[t], rfl, isFlat_nil.cons_of_kind ht, hP, fun vs _ => hp vs⟩

theorem readsFlat_quotedText : ReadsFlat (quotedText stop) fun _ _ => True := by
  intro ts us s h
  unfold quotedText at h
  split at h
  · cases h
  next t r hnext =>
    obtain rfl := next_eq_ok.mp hnext
    split at h
    · next hkind =>
      obtain ⟨s', hs, h⟩ := Attempt.map_eq_ok.mp h
      cases h
      refine takesFlat_token (by simp [hkind]) trivial fun vs => ?_
      simp [quotedText, next, hkind, hs]
    · cases h

/-- Further texts are read by induction on the bound on the steps, where no comma follows them. -/
theorem moreTexts_spec : ∀ {fuel : Nat} {ts us : List Token} {ss : List String},
    moreTexts stop fuel ts = .ok (ss, us) → atMark ',' us = false →
      ∃ pre, ts = pre ++ us ∧ IsFlat pre ∧ ss.length ≤ pre.length ∧ ∀ fuel' vs, ss.length ≤ fuel' →
        vs.head? = us.head? → moreTexts stop fuel' (pre ++ vs) = .ok (ss, vs) := by
  intro fuel
  induction fuel with
  | zero =>
      intro ts us ss h hcomma
      cases h
      refine ⟨[], rfl, isFlat_nil, le_rfl, fun fuel' vs _ hvs => ?_⟩
      rw [← atMark_congr hvs] at hcomma
      cases fuel' <;> simp [moreTexts, hcomma]
  | succ fuel ih =>
      intro ts us ss h hcomma
      rw [moreTexts] at h
      split at h
      · next hat =>
        obtain ⟨t, r, rfl, ht⟩ := exists_of_atMark hat
        split at h
        · cases h
        next s q hs =>
          obtain ⟨⟨ss', us'⟩, hss, h⟩ := Attempt.map_eq_ok.mp h
          cases h
          obtain ⟨pre, hr, hflat, -, hread⟩ := readsFlat_quotedText _ _ _ hs
          obtain ⟨more, rfl, hflat', hlen, hread'⟩ := ih hss hcomma
          obtain rfl : r = pre ++ (more ++ us') := hr
          refine ⟨t :: (pre ++ more), by simp, ?_, ?_, fun fuel' vs hfuel hvs => ?_⟩
          · exact (hflat.append hflat').cons (by simp [ht, mark]) (by simp [ht, mark])
          · simp only [List.length_cons, List.length_append]
            omega
          · obtain ⟨fuel', rfl⟩ : ∃ k, fuel' = k + 1 := ⟨fuel' - 1, by simp at hfuel; omega⟩
            rw [moreTexts, List.cons_append, if_pos (atMark_of_lexeme ht), List.tail_cons,
              List.append_assoc, hread _ (head?_append_congr hvs)]
            simp [hread' fuel' vs (by simpa using hfuel) hvs]
      · next hat =>
        cases h
        refine ⟨[], rfl, isFlat_nil, le_rfl, fun fuel' vs _ hvs => ?_⟩
        rw [← atMark_congr hvs] at hcomma
        cases fuel' <;> simp [moreTexts, hcomma]

theorem readsFlat_textList : ReadsFlat (textList stop) fun _ _ => True := by
  intro ts us ss h
  unfold textList at h
  split at h
  · next hat =>
    obtain ⟨t, r, rfl, ht⟩ := exists_of_atMark hat
    cases h
    refine ⟨[t], rfl, isFlat_nil.cons (by simp [ht, mark]) (by simp [ht, mark]), trivial,
      fun vs _ => ?_⟩
    simp [textList, atMark_of_lexeme ht]
  next hat =>
    split at h
    · cases h
    next s r hs =>
      split at h
      · cases h
      next ss' q hss =>
        obtain ⟨u, hclose, h⟩ := Attempt.map_eq_ok.mp h
        cases h
        obtain ⟨t, rfl, ht, hkind⟩ := expect_eq_ok.mp hclose
        obtain ⟨pre, rfl, hflat, -, hread⟩ := readsFlat_quotedText _ _ _ hs
        have hcomma : atMark ',' (t :: us) = false := by simp [atMark, ht]
        obtain ⟨more, rfl, hflat', hlen, hread'⟩ := moreTexts_spec hss hcomma
        refine ⟨pre ++ more ++ [t], by simp, ?_, trivial, fun vs hvs => ?_⟩
        · exact (hflat.append hflat').append (isFlat_nil.cons_of_text (by simp [ht]))
        · have hsame : (more ++ t :: vs).head? = (more ++ t :: us).head? :=
            head?_append_congr rfl
          have hat' : ¬ atMark ']' (pre ++ (more ++ t :: vs)) = true := by
            rwa [atMark_congr (head?_append_congr hsame)]
          have hlen' : ss'.length ≤ (more ++ t :: vs).length := by
            simp only [List.length_append]
            omega
          rw [show pre ++ more ++ [t] ++ vs = pre ++ (more ++ t :: vs) by simp, textList,
            if_neg hat', hread _ hsame]
          simp only [hread' _ (t :: vs) hlen' rfl, expect_eq_ok.mpr ⟨t, rfl, ht, hkind⟩,
            Attempt.map_ok]

/-- Whether the numbers of an operand are those of tokens. -/
def IsOperandOf (ts : List Token) (v : Operand) : Prop := ∀ x, v = .number x → IsStated ts x

theorem readsFlat_literal : ReadsFlat (literal stop) IsOperandOf := by
  intro ts us v h
  unfold literal at h
  split at h
  · cases h
  next t r hnext =>
    obtain rfl := next_eq_ok.mp hnext
    split_ifs at h with hnumber hquoted htrue hfalse hlist
    · cases h
      refine takesFlat_token (by simp [hnumber]) ?_ fun vs => by simp [literal, next, hnumber]
      rintro x ⟨⟩
      exact ⟨t, List.mem_singleton_self t, hnumber, rfl⟩
    · obtain ⟨s, hs, h⟩ := Attempt.map_eq_ok.mp h
      cases h
      refine takesFlat_token (by simp [hquoted]) (by rintro x ⟨⟩) fun vs => ?_
      simp [literal, next, hquoted, hs]
    · cases h
      refine takesFlat_token (by simp [htrue]) (by rintro x ⟨⟩) fun vs => ?_
      simp [literal, next, htrue]
    · cases h
      refine takesFlat_token (by simp [hfalse]) (by rintro x ⟨⟩) fun vs => ?_
      simp [literal, next, hfalse]
    · obtain ⟨⟨ss, q⟩, hss, h⟩ := Attempt.map_eq_ok.mp h
      cases h
      obtain ⟨pre, rfl, hflat, -, hread⟩ := readsFlat_textList _ _ _ hss
      refine ⟨t :: pre, rfl, hflat.cons_of_text (by simp [hlist]), by rintro x ⟨⟩, fun vs hvs => ?_⟩
      simp only [literal, next, List.cons_append, if_neg hnumber, if_neg hquoted, if_neg htrue,
        if_neg hfalse, if_pos hlist, hread vs hvs, Attempt.map_ok]
    · cases h

/-- Whether the confidence of an annotation is the number of a token. -/
def IsAnnotationOf (ts : List Token) (a : Annotation) : Prop :=
  ∀ x, a.confidence = some x → IsStated ts x

theorem IsStated.mono {x : Number} (h : IsStated ts x) (hsub : ts ⊆ us) : IsStated us x :=
  h.imp fun _ ht => ⟨hsub ht.1, ht.2⟩

theorem confidence_set (a : Annotation) (key value : String) :
    (a.set key value).confidence = a.confidence := by
  unfold Annotation.set
  split_ifs <;> rfl

/-- Whether the confidence of an annotation is the number of a token, or is that of an earlier
one. -/
def IsAnnotatedFrom (a : Annotation) (ts : List Token) (b : Annotation) : Prop :=
  ∀ x, b.confidence = some x → a.confidence = some x ∨ IsStated ts x

theorem readsFlat_value {key : String} {a : Annotation} :
    ReadsFlat (value stop key a) (IsAnnotatedFrom a) := by
  intro ts us b h
  unfold value at h
  split at h
  · cases h
  next t r hnext =>
    obtain rfl := next_eq_ok.mp hnext
    split_ifs at h with hkey hnumber hquoted
    · cases h
      refine takesFlat_token (by simp [hnumber]) ?_ fun vs => by simp [value, next, hkey, hnumber]
      rintro x ⟨⟩
      exact .inr ⟨t, List.mem_singleton_self t, hnumber, rfl⟩
    · cases h
    · obtain ⟨s, hs, h⟩ := Attempt.map_eq_ok.mp h
      cases h
      refine takesFlat_token (by simp [hquoted]) (fun x hx => .inl (confidence_set a key s ▸ hx))
        fun vs => ?_
      simp [value, next, hkey, hquoted, hs]
    · cases h

theorem readsFlat_pair {logical : Bool} {a : Annotation} :
    ReadsFlat (pair stop logical a) (IsAnnotatedFrom a) := by
  intro ts us b h
  unfold pair at h
  split at h
  · cases h
  next t r hnext =>
    obtain rfl := next_eq_ok.mp hnext
    split_ifs at h with hkey hvar
    · cases h
    · cases h
    split at h
    · cases h
    next q heq =>
      obtain ⟨e, rfl, htext, hkind⟩ := expect_eq_ok.mp heq
      obtain ⟨pre, rfl, hflat, hstated, hread⟩ := readsFlat_value _ _ _ h
      have hword : t.kind ≠ .mark := fun hmark => hkey (.inl (by simp [hmark]))
      refine ⟨t :: e :: pre, rfl, ?_, ?_, fun vs hvs => ?_⟩
      · exact (hflat.cons_of_text (by simp [htext])).cons_of_kind hword
      · exact fun x hx => (hstated x hx).imp_right fun hx => hx.mono fun u hu => by simp [hu]
      · simp only [pair, next, List.cons_append, if_neg hkey, if_neg hvar,
          expect_eq_ok.mpr ⟨e, rfl, htext, hkind⟩, hread vs hvs]

/-- The pairs of an annotation are read by induction on the bound on the steps, which is never
reached, since each pair takes tokens. -/
theorem pairs_spec {logical : Bool} : ∀ {fuel : Nat} {ts us : List Token} {a b : Annotation},
    pairs stop logical fuel a ts = .ok (b, us) → ts.length < fuel →
      ∃ pre, ts = pre ++ us ∧ IsFlat pre ∧ IsAnnotatedFrom a pre b ∧ ∀ fuel' vs,
        pre.length < fuel' → pairs stop logical fuel' a (pre ++ vs) = .ok (b, vs) := by
  intro fuel
  induction fuel with
  | zero =>
      intro ts us a b _ hlen
      cases hlen
  | succ fuel ih =>
      intro ts us a b h hlen
      rw [pairs] at h
      split at h
      · cases h
      next c r hpair =>
        obtain ⟨pre, rfl, hflat, hstated, hread⟩ := readsFlat_pair _ _ _ hpair
        split at h
        · next hat =>
          obtain ⟨t, q, rfl, ht⟩ := exists_of_atMark hat
          simp only [List.length_append, List.length_cons] at hlen
          obtain ⟨more, hq, hflat', hstated', hread'⟩ := ih h (by
            rw [List.tail_cons]
            omega)
          obtain rfl : q = more ++ us := hq
          refine ⟨pre ++ t :: more, by simp, ?_, fun x hx => ?_, fun fuel' vs hfuel => ?_⟩
          · exact hflat.append (hflat'.cons (by simp [ht, mark]) (by simp [ht, mark]))
          · rcases hstated' x hx with hx | hx
            · exact (hstated x hx).imp_right fun hx => hx.mono (List.subset_append_left _ _)
            · exact .inr (hx.mono fun u hu => by simp [hu])
          · simp only [List.length_append, List.length_cons] at hfuel
            obtain ⟨fuel', rfl⟩ : ∃ k, fuel' = k + 1 := ⟨fuel' - 1, by omega⟩
            rw [List.append_assoc, List.cons_append, pairs, hread (t :: (more ++ vs)) rfl]
            simp only [atMark_of_lexeme ht, if_true, List.tail_cons]
            exact hread' fuel' vs (by omega)
        · next hat =>
          obtain ⟨u, hclose, h⟩ := Attempt.map_eq_ok.mp h
          cases h
          obtain ⟨t, rfl, ht, hkind⟩ := expect_eq_ok.mp hclose
          refine ⟨pre ++ [t], by simp, ?_, fun x hx => ?_, fun fuel' vs hfuel => ?_⟩
          · exact hflat.append (isFlat_nil.cons_of_text (by simp [ht]))
          · exact (hstated x hx).imp_right fun hx => hx.mono (List.subset_append_left _ _)
          · obtain ⟨fuel', rfl⟩ : ∃ k, fuel' = k + 1 := ⟨fuel' - 1, by omega⟩
            have hat' : ¬ atMark ',' (t :: vs) = true := by rwa [atMark_congr rfl]
            rw [List.append_assoc, List.singleton_append, pairs, hread (t :: vs) rfl]
            simp only [if_neg hat', expect_eq_ok.mpr ⟨t, rfl, ht, hkind⟩, Attempt.map_ok]

theorem readsFlat_annotation {logical : Bool} :
    ReadsFlat ( annotation? stop logical) IsAnnotationOf := by
  intro ts us a h
  unfold annotation? at h
  split at h
  · next hat =>
    obtain ⟨t, r, rfl, ht⟩ := exists_of_atMark hat
    obtain ⟨pre, hr, hflat, hstated, hread⟩ := pairs_spec h (by simp)
    obtain rfl : r = pre ++ us := hr
    refine ⟨t :: pre, rfl, hflat.cons (by simp [ht, mark]) (by simp [ht, mark]), fun x hx => ?_,
      fun vs _ => ?_⟩
    · rcases hstated x hx with hx | hx
      · cases hx
      · exact hx.mono (List.subset_cons_self _ _)
    · rw [List.cons_append, annotation?, if_pos (atMark_of_lexeme ht)]
      exact hread _ vs (by simp only [List.length_cons, List.length_append]; omega)
  · next hat =>
    cases h
    refine ⟨[], rfl, isFlat_nil, by rintro x ⟨⟩, fun vs hvs => ?_⟩
    rw [List.nil_append, annotation?, if_neg (by rwa [atMark_congr hvs])]

theorem isLogical_of_lookup_signs {cs : List Char} {o : Operator}
    (h : signs.lookup cs = some o) : o.isLogical = false := by
  obtain ⟨l, r, hl, -⟩ := List.lookup_eq_some_iff.mp h
  have hmem : (cs, o) ∈ signs := by simp [hl]
  exact (by decide : ∀ p ∈ signs, p.2.isLogical = false) _ hmem

theorem readsFlat_comparison :
    ReadsFlat (comparison stop) fun pre o => pre ≠ [] ∧ o.isLogical = false := by
  intro ts us o h
  unfold comparison at h
  split at h
  · cases h
  next t r hnext =>
    obtain rfl := next_eq_ok.mp hnext
    split at h
    · next p hsign =>
      cases h
      obtain ⟨hkind, hlookup⟩ := Option.ite_none_right_eq_some.mp hsign
      refine takesFlat_token (by simp [hkind])
        ⟨List.cons_ne_nil _ _, isLogical_of_lookup_signs hlookup⟩ fun vs => ?_
      simp only [comparison, next, hsign]
    · next hsign =>
      split_ifs at h with hin hnot
      · cases h
        refine takesFlat_token (by simp [hin]) ⟨List.cons_ne_nil _ _, rfl⟩ fun vs => ?_
        simp only [comparison, next, hsign, if_pos hin]
      · obtain ⟨q, hq, h⟩ := Attempt.map_eq_ok.mp h
        cases h
        obtain ⟨u, rfl, hu, hkind⟩ := expect_eq_ok.mp hq
        refine ⟨[t, u], rfl, (isFlat_nil.cons_of_text (by simp [hu])).cons_of_kind
          (by simp [hnot]), ⟨List.cons_ne_nil _ _, rfl⟩, fun vs _ => ?_⟩
        simp only [comparison, next, List.cons_append, List.nil_append, hsign, if_neg hin,
          if_pos hnot, expect_eq_ok.mpr ⟨u, rfl, hu, hkind⟩, Attempt.map_ok]
      · cases h

end Flat

end Parser
end Rule
end Eligibility
