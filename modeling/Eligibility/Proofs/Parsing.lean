import Eligibility.Proofs.Lexemes
import Eligibility.Rule.Parser
/-!
# Parts of rules are read from their lexemes

**Reading.**  A reader yields a value from given lexemes when it takes that value from any
tokens that have them, and leaves tokens of given other lexemes.

**Parts.**  Operands, comparison signs and annotations are read from their lexemes as what
they were, the zero with a minus sign as the other one.  What is read in a loop ends at
the first lexeme that is no comma.

**Results.**
* `yields_literal`, `yields_comparison`: the parts of a comparison.
* `annotation_yields`: the annotation of a head.
-/

namespace Eligibility

theorem TextSet.ofList_members (s : TextSet) : ofList s.members = s :=
  ext_members fun _ => mem_ofList

namespace Operand

/-- An operand, the zero with a minus sign taken for the one without. -/
def plain : Operand → Operand
  | number x => .number x.plain
  | v => v

end Operand

namespace Rule

/-- A number that is written so that it is read back. -/
structure IsWritable (x : Number) : Prop where
  finite : x.isFinite = true
  double : x.IsDouble

theorem IsWritable.hasNumeral {lax : Bool} {x : Number} (hx : IsWritable x) : HasNumeral lax x := by
  obtain ⟨n, b, hn, -⟩ := Numeral.exists_numeral_brief hx.finite hx.double
  exact .inl ⟨hx.finite, n, b, hn⟩

namespace Parser

variable {α β : Type}

/-- A reader takes a value from tokens of given lexemes, and leaves tokens of given other
lexemes. -/
def Yields (p : List Token → Step α) (ls : List Lexeme) (a : α) (ms : List Lexeme) : Prop :=
  ∀ ts, ts.map Token.lexeme = ls → ∃ us, p ts = .ok (a, us) ∧ us.map Token.lexeme = ms

section Tokens

variable {ts : List Token} {ls ms : List Lexeme}

theorem exists_token {k : TokenClass} {t : List Char} (h : ts.map Token.lexeme = (k, t) :: ls) :
    ∃ u us, ts = u :: us ∧ u.kind = k ∧ u.text = t ∧ us.map Token.lexeme = ls := by
  obtain ⟨u, us, rfl, hu, hus⟩ := List.map_eq_cons_iff.mp h
  exact ⟨u, us, rfl, congrArg Prod.fst hu, congrArg Prod.snd hu, hus⟩

theorem atMark_eq (c : Char) (ts : List Token) :
    atMark c ts = decide ((ts.map Token.lexeme).head? = some (mark c)) := by
  cases ts with
  | nil => rfl
  | cons t ts => simp [atMark, Token.lexeme, mark, Bool.and_comm]

theorem atMark_eq_true {c : Char} (h : ts.map Token.lexeme = mark c :: ls) :
    atMark c ts = true := by
  rw [atMark_eq, h]
  simp

theorem atMark_eq_false {c : Char} (h : ts.map Token.lexeme = ls)
    (hc : ls.head? ≠ some (mark c)) : atMark c ts = false := by
  rw [atMark_eq, h]
  simpa using hc

theorem exists_expect (stop : Nat) {k : TokenClass} {t : List Char} (hk : k ≠ .quoted)
    (h : ts.map Token.lexeme = (k, t) :: ls) :
    ∃ us, expect stop t ts = .ok us ∧ us.map Token.lexeme = ls := by
  obtain ⟨u, us, rfl, hkind, htext, hus⟩ := exists_token h
  exact ⟨us, by simp [expect, next, htext, hkind, hk], hus⟩

theorem unquoted_of_lexeme {u : Token} {s : String} (h : u.text = Text.quoteChars s.toList) :
    unquoted u = .ok s := by
  have := Text.unquote_escape s.toList []
  simp [unquoted, h, Text.quoteChars, this]

/-- The text of a number that is written so is read back. -/
theorem numberOf_of_lexeme {u : Token} {x : Number} (hx : IsWritable x)
    (h : u.lexeme = numberLexeme x) : u.kind = .number ∧ numberOf u = x.plain := by
  obtain ⟨n, b, hn, hvalue⟩ := Numeral.exists_numeral_brief hx.finite hx.double
  rw [numberLexeme, hx.finite] at h
  have htext : u.text = x.brief := congrArg Prod.snd h
  refine ⟨congrArg Prod.fst h, ?_⟩
  rw [numberOf, htext, hn, n.asciiDigits_signed, n.read?_signed, hvalue]
  rfl

end Tokens

section Literals

variable (stop : Nat) {ms : List Lexeme}

theorem yields_quotedText (s : String) :
    Yields (quotedText stop) (quoted s :: ms) s ms := by
  intro ts h
  obtain ⟨u, us, rfl, hkind, htext, hus⟩ := exists_token h
  exact ⟨us, by simp [quotedText, next, hkind, unquoted_of_lexeme htext, Except.map], hus⟩

theorem yields_moreTexts (hms : ms.head? ≠ some (mark ',')) :
    ∀ (ss : List String) (fuel : Nat), ss.length ≤ fuel →
      Yields (moreTexts stop fuel) (ss.flatMap (fun s => [mark ',', quoted s]) ++ ms) ss ms
  | [], fuel, _, ts, h => by
      have hat : atMark ',' ts = false := atMark_eq_false h hms
      refine ⟨ts, ?_, h⟩
      cases fuel <;> simp [moreTexts, hat]
  | s :: ss, fuel + 1, hlen, ts, h => by
      have hat : atMark ',' ts = true := atMark_eq_true h
      obtain ⟨u, us, rfl, -, -, hus⟩ := exists_token h
      obtain ⟨vs, hs, hvs⟩ := yields_quotedText stop s us hus
      obtain ⟨ws, hss, hws⟩ := yields_moreTexts hms ss fuel (by simpa using hlen) vs hvs
      exact ⟨ws, by simp [moreTexts, hat, hs, hss, Except.map], hws⟩

theorem commaLexemes_cons (x : List Lexeme) (r : List (List Lexeme)) :
    commaLexemes (x :: r) = x ++ r.flatMap (fun y => mark ',' :: y) := by
  induction r generalizing x with
  | nil => simp [commaLexemes]
  | cons y r ih => rw [commaLexemes, ih] <;> simp

theorem length_le_length_commas (lss : List (List Lexeme)) :
    lss.length ≤ (lss.flatMap fun ls => mark ',' :: ls).length := by
  induction lss with
  | nil => simp
  | cons ls lss ih =>
      simp only [List.flatMap_cons, List.length_append, List.length_cons]
      omega

theorem yields_textList (ss : List String) :
    Yields (textList stop) (commaLexemes (ss.map fun s => [quoted s]) ++ mark ']' :: ms) ss ms := by
  intro ts h
  cases ss with
  | nil =>
      obtain ⟨u, us, rfl, hkind, htext, hus⟩ := exists_token (show ts.map _ = mark ']' :: ms from h)
      refine ⟨us, ?_, hus⟩
      simp [textList, atMark, hkind, htext]
  | cons s ss =>
      rw [List.map_cons, commaLexemes_cons, List.flatMap_map, List.append_assoc] at h
      have hat : atMark ']' ts = false := atMark_eq_false h (by simp [quoted, mark])
      obtain ⟨us, hs, hus⟩ := yields_quotedText stop s ts h
      have hlen : ss.length ≤ us.length := by
        have := congrArg List.length hus
        simp at this
        omega
      obtain ⟨vs, hss, hvs⟩ := yields_moreTexts stop (by simp [mark]) ss _ hlen us hus
      obtain ⟨ws, hclose, hws⟩ := exists_expect stop (by decide) hvs
      exact ⟨ws, by simp [textList, hat, hs, hss, hclose, Except.map], hws⟩

/-- An operand is read back. -/
theorem yields_literal {v : Operand} (hv : ∀ x, v = .number x → IsWritable x) :
    Yields (literal stop) (operandLexemes v ++ ms) v.plain ms := by
  intro ts h
  cases v with
  | number x =>
      obtain ⟨u, us, rfl, hu, hus⟩ := List.map_eq_cons_iff.mp h
      obtain ⟨hkind, hnumber⟩ := numberOf_of_lexeme (hv x rfl) hu
      exact ⟨us, by simp [literal, next, hkind, hnumber, Operand.plain], hus⟩
  | text s =>
      obtain ⟨u, us, rfl, hkind, htext, hus⟩ := exists_token h
      refine ⟨us, ?_, hus⟩
      simp [literal, next, hkind, unquoted_of_lexeme htext, Except.map, Operand.plain]
  | flag b =>
      obtain ⟨u, us, rfl, hkind, htext, hus⟩ := exists_token h
      refine ⟨us, ?_, hus⟩
      cases b <;> simp [literal, next, hkind, htext, Operand.flagText, Operand.plain]
  | texts s =>
      rw [operandLexemes, List.cons_append, List.append_assoc] at h
      obtain ⟨u, us, rfl, hkind, htext, hus⟩ := exists_token h
      obtain ⟨vs, hss, hvs⟩ := yields_textList stop s.members us hus
      refine ⟨vs, ?_, hvs⟩
      simp [literal, next, hkind, htext, hss, Except.map, TextSet.ofList_members, Operand.plain]

end Literals

section Comparisons

variable (stop : Nat) {ms : List Lexeme}

/-- The sign of a comparison is read back. -/
theorem yields_comparison {o : Operator} (ho : o.isLogical = false) :
    Yields (comparison stop) (signLexemes o ++ ms) o ms := by
  have hsign : ∀ t p, signs.lookup t = some p →
      Yields (comparison stop) ((.sign, t) :: ms) p ms := by
    intro t p hp ts h
    obtain ⟨u, us, rfl, hkind, htext, hus⟩ := exists_token h
    exact ⟨us, by simp [comparison, next, hkind, htext, hp], hus⟩
  intro ts h
  cases o with
  | and => cases ho
  | or => cases ho
  | not => cases ho
  | isIn =>
      obtain ⟨u, us, rfl, hkind, htext, hus⟩ := exists_token h
      exact ⟨us, by simp [comparison, next, hkind, htext], hus⟩
  | notIn =>
      obtain ⟨u, us, rfl, hkind, htext, hus⟩ := exists_token h
      obtain ⟨vs, hin, hvs⟩ := exists_expect stop (by decide) hus
      have hin : expect stop ['i', 'n'] us = .ok vs := hin
      exact ⟨vs, by simp [comparison, next, hkind, htext, hin, Except.map], hvs⟩
  | _ => exact hsign _ _ rfl ts h

theorem unticked_doubleTicks (name : List Char) : unticked (doubleTicks name) = name := by
  induction name with
  | nil => rfl
  | cons c name ih =>
      by_cases hc : c = '`'
      · simp [doubleTicks, hc, unticked, ih]
      · simp [doubleTicks, hc, unticked, ih]

/-- A variable is read back, and is not taken for a logical word. -/
theorem subject?_of_lexeme {u : Token} {name : String}
    (h : u.lexeme = variableLexeme name.toList) :
    subject? u = some name ∧ (u.kind = .word → logicalWords.lookup u.text = none) := by
  have htext : u.text = variableText name.toList := congrArg Prod.snd h
  have hkind := congrArg Prod.fst h
  by_cases hplain : (isIdentifier name.toList && !words.contains name.toList) = true
  · have hword : name.toList ∉ words := by
      simpa using (Bool.and_eq_true_iff.mp hplain).2
    simp only [variableLexeme, Token.lexeme, hplain, if_true] at hkind
    simp only [variableText, hplain, if_true] at htext
    refine ⟨by simp [subject?, hkind, htext, hword, shownText], fun _ => ?_⟩
    rw [htext, List.lookup_eq_none_iff]
    have hwords : ∀ p ∈ logicalWords, p.1 ∈ words := by decide
    intro p hp
    refine bne_iff_ne.mpr ?_
    rintro heq
    exact hword (heq ▸ hwords p hp)
  · simp only [variableLexeme, Token.lexeme, hplain] at hkind
    simp only [variableText, hplain] at htext
    refine ⟨?_, fun hk => by simp [hkind] at hk⟩
    simp [subject?, hkind, htext, unticked_doubleTicks]

end Comparisons

section Annotations

variable (stop : Nat) {ms : List Lexeme}

/-- An annotation with an entry set. -/
def Entry.put (a : Annotation) : Entry → Annotation
  | .text k s => a.set k s
  | .confidence x => { a with confidence := some x.plain }

/-- What the annotation of a head says. -/
def annotationOf (h : Head) : Annotation where
  id := some h.id
  subject := if h.operator.isLogical then some h.subject else none
  clause := some h.clause
  confidence := h.confidence.map Number.plain
  group := h.group

theorem foldl_put_entries (h : Head) : (entries h).foldl Entry.put {} = annotationOf h := by
  unfold entries annotationOf
  cases h.operator.isLogical <;> cases h.confidence <;> cases h.group <;>
    simp [Entry.put, Annotation.set]

/-- An entry of an annotation is read back. -/
theorem yields_pair {h : Head} (hx : ∀ x, h.confidence = some x → IsWritable x) {e : Entry}
    (he : e ∈ entries h) (a : Annotation) :
    Yields (pair stop h.operator.isLogical a) (e.lexemes ++ ms) (Entry.put a e) ms := by
  intro ts hts
  obtain ⟨u, us, rfl, hkind, htext, hus⟩ := exists_token hts
  obtain ⟨vs, heq, hvs⟩ := exists_expect stop (by decide) hus
  obtain ⟨v, ws, rfl, hv, hws⟩ := List.map_eq_cons_iff.mp hvs
  have hkey : shownText u = e.key := by simp [shownText, htext]
  refine ⟨ws, ?_, hws⟩
  rcases of_mem_entries he with ⟨k, s, rfl, hk, hvar⟩ | ⟨x, rfl, hsome⟩
  · have hne : k ≠ "confidence" := by
      rintro rfl
      simp at hk
    have hkeys : k ∈ keys := by
      simp only [List.mem_cons, List.not_mem_nil, or_false] at hk
      rcases hk with rfl | rfl | rfl | rfl <;> simp [keys]
    have hmisplaced : ¬ (k = "var" ∧ h.operator.isLogical = false) :=
      fun hc => by simp [hvar hc.1] at hc
    have hvkind : v.kind = .quoted := congrArg Prod.fst hv
    have hvalue := unquoted_of_lexeme (congrArg Prod.snd hv)
    simp only [Entry.key] at hkey
    simp [pair, next, hkind, hkey, hkeys, hmisplaced, heq, value, hne, hvkind, hvalue, Except.map,
      Entry.put]
  · obtain ⟨hvkind, hnumber⟩ := numberOf_of_lexeme (hx x hsome) hv
    simp only [Entry.key] at hkey
    simp [pair, next, hkind, hkey, keys, heq, value, hvkind, hnumber, Entry.put]

theorem yields_pairs {h : Head} (hx : ∀ x, h.confidence = some x → IsWritable x) :
    ∀ (es : List Entry) (e : Entry) (fuel : Nat) (a : Annotation), (∀ f ∈ e :: es, f ∈ entries h) →
      es.length < fuel →
      Yields (pairs stop h.operator.isLogical fuel a)
        (commaLexemes ((e :: es).map Entry.lexemes) ++ mark '}' :: ms) ((e :: es).foldl Entry.put a)
        ms
  | [], e, fuel + 1, a, hes, _, ts, hts => by
      obtain ⟨us, hpair, hus⟩ := yields_pair stop hx (hes e (by simp)) a ts hts
      have hat : atMark ',' us = false := atMark_eq_false hus (by simp [mark])
      obtain ⟨vs, hclose, hvs⟩ := exists_expect stop (by decide) hus
      exact ⟨vs, by simp [pairs, hpair, hat, hclose, Except.map], hvs⟩
  | f :: es, e, fuel + 1, a, hes, hlen, ts, hts => by
      rw [List.map_cons, commaLexemes_cons, List.append_assoc, List.map_cons, List.flatMap_cons]
        at hts
      obtain ⟨us, hpair, hus⟩ := yields_pair stop hx (hes e (by simp)) a ts hts
      have hat : atMark ',' us = true := atMark_eq_true hus
      obtain ⟨v, vs, rfl, -, -, hvs⟩ := exists_token hus
      have hvs : vs.map Token.lexeme =
          commaLexemes ((f :: es).map Entry.lexemes) ++ mark '}' :: ms := by
        rw [List.map_cons, commaLexemes_cons]
        exact hvs
      obtain ⟨ws, hrest, hws⟩ := yields_pairs hx es f fuel (Entry.put a e)
        (fun g hg => hes g (List.mem_cons_of_mem _ hg)) (by simpa using hlen) vs hvs
      exact ⟨ws, by simp [pairs, hpair, hat, hrest], hws⟩

/-- The annotation of a head is read back. -/
theorem annotation_yields {h : Head} (hx : ∀ x, h.confidence = some x → IsWritable x) :
    Yields ( annotation? stop h.operator.isLogical) (annotationLexemes h ++ ms) (annotationOf h)
      ms := by
  intro ts hts
  have hat : atMark '{' ts = true := atMark_eq_true hts
  obtain ⟨e, es, hes⟩ : ∃ e es, entries h = e :: es := ⟨_, _, rfl⟩
  obtain ⟨t, us, rfl, -, -, hus⟩ := exists_token hts
  have hus : us.map Token.lexeme =
      commaLexemes ((e :: es).map Entry.lexemes) ++ mark '}' :: ms := by
    rw [← hes]
    simpa using hus
  have hlen : es.length < (t :: us).length + 1 := by
    have hus := congrArg List.length hus
    have hcommas := length_le_length_commas (es.map Entry.lexemes)
    simp only [List.map_cons, commaLexemes_cons, List.length_append, List.length_map] at hus hcommas
    simp only [List.length_cons]
    omega
  obtain ⟨vs, hpairs, hvs⟩ :=
    yields_pairs stop hx es e _ {} (fun f hf => hes ▸ hf) hlen us hus
  rw [← hes, foldl_put_entries] at hpairs
  exact ⟨vs, by simpa [ annotation?, hat] using hpairs, hvs⟩

end Annotations

end Parser
end Rule
end Eligibility
