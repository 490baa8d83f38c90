import Eligibility.Proofs.ReadTexts
/-!
# How tokens are spelled

**Pieces.**  Every class of tokens takes a piece off the head of a text that is not empty.  The
tokens of a text lie in it, and so does the first place that fits no class.

**Classes.**  What a token begins with says of which class it is, so that a token with the text of
a mark is a mark, unless it is quoted.

**Values.**  What the reader of rules makes of a token is always there: each comparison sign has an
operator, each number is the text of a number, digits of any script among them, and what stands
between quotes ends at the closing one.

**Results.**
* `isLexed_of_split`: every token of a text is of the class that its text is taken for.
* `position_lt_of_split`, `position_lt_of_split_error`: the places of tokens and of refusals.
* `IsLexed.hasValue`: the values of signs, numbers and quoted texts.
-/

namespace Eligibility
namespace Rule
namespace Token

section Pieces

variable {cs : List Char} {p : Piece}

theorem Piece.IsOf.before {cs : List Char} {p : Piece} (h : p.IsOf cs) (ds : List Char) :
    (before ds p).IsOf (ds ++ cs) := by
  simp only [Piece.IsOf, Token.before, List.append_assoc] at h ⊢
  rw [h]

theorem quotedBody_isOf (h : quotedBody cs = some p) : p.IsOf cs ∧ p.1 ≠ [] := by
  fun_induction quotedBody cs generalizing p with
  | case1 => cases h
  | case2 r =>
      cases h
      exact ⟨rfl, List.cons_ne_nil _ _⟩
  | case3 => cases h
  | case4 r => cases h
  | case5 c r hc ih =>
      obtain ⟨q, hq, rfl⟩ := Option.map_eq_some_iff.mp h
      exact ⟨(ih hq).1.before _, List.cons_ne_nil _ _⟩
  | case6 c r _ _ _ ih =>
      obtain ⟨q, hq, rfl⟩ := Option.map_eq_some_iff.mp h
      exact ⟨(ih hq).1.before _, List.cons_ne_nil _ _⟩

theorem tickedBody_isOf (h : tickedBody cs = some p) : p.IsOf cs ∧ p.1 ≠ [] := by
  fun_induction tickedBody cs generalizing p with
  | case1 => cases h
  | case2 r q hq ih =>
      cases h
      exact ⟨(ih hq).1.before _, List.cons_ne_nil _ _⟩
  | case3 r hr ih =>
      cases h
      exact ⟨rfl, List.cons_ne_nil _ _⟩
  | case4 r hr =>
      cases h
      exact ⟨rfl, List.cons_ne_nil _ _⟩
  | case5 c r _ _ ih =>
      obtain ⟨q, hq, rfl⟩ := Option.map_eq_some_iff.mp h
      exact ⟨(ih hq).1.before _, List.cons_ne_nil _ _⟩

/-- What is taken for a sign has an operator. -/
theorem signPiece_isOf (h : signPiece cs = some p) :
    p.IsOf cs ∧ ∃ o, Parser.signs.lookup p.1 = some o := by
  unfold signPiece at h
  split at h <;> cases h <;> exact ⟨rfl, _, rfl⟩

theorem wordPiece_isOf (h : wordPiece cs = some p) : p.IsOf cs ∧ p.1 ≠ [] := by
  unfold wordPiece at h
  split at h
  · cases h
  · split_ifs at h
    cases h
    exact ⟨congrArg (List.cons _) List.takeWhile_append_dropWhile, List.cons_ne_nil _ _⟩

theorem numberPiece_ne_nil (h : numberPiece cs = some p) : p.1 ≠ [] := by
  have hunsigned : ∀ {ds : List Char} {q : Piece}, unsigned ds = some q → q.1 ≠ [] := by
    intro ds q hq
    obtain ⟨m, hm, rfl⟩ := Option.map_eq_some_iff.mp hq
    refine List.append_ne_nil_of_left_ne_nil ?_ _
    unfold mantissa at hm
    dsimp only at hm
    split at hm <;> split_ifs at hm with hne <;> cases hm
    · simp
    · simpa using hne
  unfold numberPiece at h
  split at h
  · obtain ⟨q, -, rfl⟩ := Option.map_eq_some_iff.mp h
    exact List.cons_ne_nil _ _
  · exact hunsigned h

/-- What a class of tokens takes off the head of a text. -/
def takes? : TokenClass → List Char → Option Piece
  | .quoted, '"' :: r => (quotedBody r).map (before ['"'])
  | .ticked, '`' :: r => (tickedBody r).map (before ['`'])
  | .number, cs => numberPiece cs
  | .sign, cs => signPiece cs
  | .mark, c :: r => if marks.contains c then some ([c], r) else none
  | .word, cs => wordPiece cs
  | _, _ => none

/-- A token is what its class takes. -/
theorem takes?_of_lex {k : TokenClass} (h : lex cs = some (k, p)) : takes? k cs = some p := by
  unfold lex at h
  split at h
  · cases h
  next c r =>
    split at h
    · next hquote =>
      obtain ⟨q, hq, h⟩ := Option.map_eq_some_iff.mp h
      cases h
      rw [hquote, takes?, hq, Option.map_some]
    split at h
    · next htick =>
      obtain ⟨q, hq, h⟩ := Option.map_eq_some_iff.mp h
      cases h
      rw [htick, takes?, hq, Option.map_some]
    split at h
    · next q hq =>
      cases h
      exact hq
    split at h
    · next q hq =>
      cases h
      exact hq
    split at h
    · next hmark =>
      cases h
      rw [takes?, if_pos hmark]
    · obtain ⟨q, hq, h⟩ := Option.map_eq_some_iff.mp h
      cases h
      exact hq

/-- A token is taken off the head of a text, and is not empty. -/
theorem lex_isOf {k : TokenClass} (h : lex cs = some (k, p)) : p.IsOf cs ∧ p.1 ≠ [] := by
  replace h := takes?_of_lex h
  unfold takes? at h
  split at h
  · obtain ⟨q, hq, rfl⟩ := Option.map_eq_some_iff.mp h
    exact ⟨(quotedBody_isOf hq).1.before _, List.cons_ne_nil _ _⟩
  · obtain ⟨q, hq, rfl⟩ := Option.map_eq_some_iff.mp h
    exact ⟨(tickedBody_isOf hq).1.before _, List.cons_ne_nil _ _⟩
  · exact ⟨numberPiece_isOf h, numberPiece_ne_nil h⟩
  · obtain ⟨hof, o, ho⟩ := signPiece_isOf h
    refine ⟨hof, fun hnil => ?_⟩
    rw [hnil] at ho
    cases ho
  · split at h <;> cases h
    exact ⟨rfl, List.cons_ne_nil _ _⟩
  · exact wordPiece_isOf h
  · cases h

end Pieces

section Places

/-- Whether a token is of the class that its text is taken for, something being behind it. -/
def IsLexed (t : Token) : Prop := ∃ rest, lex (t.text ++ rest) = some (t.kind, t.text, rest)

/-- The tokens of a text are taken off it one by one, and lie in it. -/
theorem splitFrom_spec : ∀ {fuel position : Nat} {cs : List Char} {ts : List Token},
    splitFrom fuel position cs = .ok ts →
      ∀ t ∈ ts, t.IsLexed ∧ t.position < position + cs.length
  | fuel, position, [], ts, h => by
      cases fuel <;> cases h <;> exact List.forall_mem_nil _
  | 0, position, c :: r, ts, h => by cases h
  | fuel + 1, position, c :: r, ts, h => by
      rw [splitFrom] at h
      split_ifs at h
      · intro t ht
        have := splitFrom_spec h t ht
        refine ⟨this.1, ?_⟩
        have := this.2
        simp only [List.length_cons]
        omega
      · split at h
        · cases h
        next k t rest hlex =>
          obtain ⟨hof, hne⟩ := lex_isOf hlex
          replace hof : t ++ rest = c :: r := hof
          obtain ⟨us, hus, rfl⟩ := Attempt.map_eq_ok.mp h
          have hlen : t.length + rest.length = (c :: r).length := by
            rw [← hof, List.length_append]
          refine List.forall_mem_cons.mpr ⟨⟨⟨rest, ?_⟩, ?_⟩, fun u hu => ?_⟩
          · rw [hof, hlex]
          · simp only [List.length_cons]
            omega
          · obtain ⟨hlexed, hplace⟩ := splitFrom_spec hus u hu
            exact ⟨hlexed, by omega⟩

theorem splitFrom_error : ∀ {fuel position : Nat} {cs : List Char} {e : Nat × Char},
    splitFrom fuel position cs = .error e → e.1 < position + cs.length
  | fuel, position, [], e, h => by cases fuel <;> cases h
  | 0, position, c :: r, e, h => by
      cases h
      simp
  | fuel + 1, position, c :: r, e, h => by
      rw [splitFrom] at h
      split_ifs at h
      · have := splitFrom_error h
        simp only [List.length_cons]
        omega
      · split at h
        · cases h
          simp
        next k t rest hlex =>
          have hof : t ++ rest = c :: r := (lex_isOf hlex).1
          have hlen : t.length + rest.length = (c :: r).length := by
            rw [← hof, List.length_append]
          cases hrest : splitFrom fuel (position + t.length) rest with
          | ok us =>
              rw [hrest] at h
              cases h
          | error e' =>
              rw [hrest] at h
              cases h
              have := splitFrom_error hrest
              omega

theorem isLexed_of_split {cs : List Char} {ts : List Token} (h : split cs = .ok ts) :
    ∀ t ∈ ts, t.IsLexed := fun t ht => (splitFrom_spec h t ht).1

theorem position_lt_of_split {cs : List Char} {ts : List Token} (h : split cs = .ok ts) :
    ∀ t ∈ ts, t.position < cs.length := fun t ht => by
  simpa using (splitFrom_spec h t ht).2

theorem position_lt_of_split_error {cs : List Char} {e : Nat × Char} (h : split cs = .error e) :
    e.1 < cs.length := by simpa using splitFrom_error h

end Places

section Classes

variable {t : Token} {c : Char} {w : List Char}

/-- What begins like nothing else is a mark or a word. -/
theorem IsLexed.kind_eq (h : t.IsLexed) (ht : t.text = c :: w) (hc : IsPlainStart c)
    (hs : c ∉ ['=', '!', '<', '>']) : t.kind = if marks.contains c then .mark else .word := by
  obtain ⟨rest, h⟩ := h
  rw [ht, List.cons_append, lex_of_isPlainStart hc, signPiece_eq_none hs] at h
  dsimp only at h
  split at h
  · next hmark =>
    rw [if_pos hmark]
    exact (congrArg Prod.fst (Option.some.inj h)).symm
  · next hmark =>
    rw [if_neg hmark]
    obtain ⟨q, -, h⟩ := Option.map_eq_some_iff.mp h
    exact (congrArg Prod.fst h).symm

/-- A token with the text of a mark is a mark. -/
theorem IsLexed.lexeme_of_mark (h : t.IsLexed) (hc : c ∈ marks) (ht : t.text = [c]) :
    t.lexeme = mark c := by
  have hkind : t.kind = .mark := by
    by_cases heq : c = '='
    · -- a sign that begins so is longer
      obtain ⟨rest, h⟩ := h
      subst heq
      rw [ht, List.singleton_append, lex_of_isPlainStart (by decide)] at h
      split at h
      · next p hp =>
        obtain ⟨-, rfl⟩ := Prod.mk.inj (Option.some.inj h)
        unfold signPiece at hp
        split at hp <;> simp_all
      · exact (congrArg Prod.fst (Option.some.inj h)).symm
    · have hfacts : ∀ c ∈ marks, c ≠ '=' → IsPlainStart c ∧ c ∉ ['=', '!', '<', '>'] ∧
          marks.contains c = true := List.all_iff_forall_prop.mp (by decide)
      obtain ⟨hplain, hs, hmark⟩ := hfacts c hc heq
      rw [h.kind_eq ht hplain hs, if_pos hmark]
  rw [lexeme, hkind, ht, mark]

/-- A token with the text of the first membership test is a word. -/
theorem IsLexed.lexeme_of_in (h : t.IsLexed) (ht : t.text = "in".toList) :
    t.lexeme = (.word, "in".toList) := by
  rw [lexeme, ht, h.kind_eq (c := 'i') (w := ['n']) ht (by decide) (by decide)]
  rfl

/-- Each comparison sign has an operator. -/
theorem IsLexed.exists_operator (h : t.IsLexed) (hk : t.kind = .sign) :
    ∃ o, Parser.signs.lookup t.text = some o := by
  obtain ⟨rest, h⟩ := h
  rw [hk] at h
  exact (signPiece_isOf (takes?_of_lex h)).2

end Classes

section Quotes

open Text

variable {cs ds r rest : List Char}

/-- What is left of a quoted text behind inert characters is closed where the text is. -/
theorem quotedBody_of_isInert (hd : IsInert ds)
    (h : quotedBody (ds ++ r ++ rest) = some (ds ++ r, rest)) :
    quotedBody (r ++ rest) = some (r, rest) := by
  rw [List.append_assoc, hd] at h
  obtain ⟨⟨q, rest'⟩, hq, h⟩ := Option.map_eq_some_iff.mp h
  simp only [before, Prod.mk.injEq, List.append_cancel_left_eq] at h
  rw [hq, h.1, h.2]

theorem isInert_of_hexValue? {c : Char} {n : Nat} (h : hexValue? c = some n) : IsInert [c] := by
  refine isInert_char ?_ ?_ <;> rintro rfl <;> cases h

theorem isInert_of_unhex4? {a b c d : Char} {n : Nat} (h : unhex4? a b c d = some n) :
    IsInert [a, b, c, d] := by
  unfold unhex4? at h
  split at h
  · next ha hb hc hd =>
    exact (((isInert_of_hexValue? ha).append (isInert_of_hexValue? hb)).append
      (isInert_of_hexValue? hc)).append (isInert_of_hexValue? hd)
  · cases h

theorem exists_isInert_of_readUnit {n : Nat} (h : readUnit cs = .ok (n, r)) :
    ∃ ds, IsInert ds ∧ cs = ds ++ r := by
  unfold readUnit at h
  split at h
  · split at h
    · next hunit =>
      cases h
      exact ⟨_, isInert_of_unhex4? hunit, rfl⟩
    · cases h
  · cases h

theorem exists_isInert_of_readLowUnit {n : Nat} (h : readLowUnit cs = .ok (some (n, r))) :
    ∃ ds, IsInert ds ∧ cs = ds ++ r := by
  unfold readLowUnit at h
  split at h
  · split at h
    · next hunit =>
      split at h <;> cases h
      exact ⟨_, (isInert_letter (c := 'u') (by decide)).append (isInert_of_unhex4? hunit), rfl⟩
    · cases h
  · cases h

theorem exists_isInert_of_readUnicode {c : Char} (h : readUnicode cs = .ok (c, r)) :
    ∃ ds, IsInert ds ∧ cs = ds ++ r := by
  unfold readUnicode at h
  split at h
  · cases h
  next n s hunit =>
    obtain ⟨ds, hds, rfl⟩ := exists_isInert_of_readUnit hunit
    split at h
    · split at h
      · cases h
      · next hlow =>
        obtain ⟨-, rfl⟩ := Prod.mk.inj (Except.ok.inj h)
        obtain ⟨es, hes, rfl⟩ := exists_isInert_of_readLowUnit hlow
        exact ⟨ds ++ es, hds.append hes, by simp⟩
      · obtain ⟨-, rfl⟩ := Prod.mk.inj (Except.ok.inj h)
        exact ⟨ds, hds, rfl⟩
    · obtain ⟨-, rfl⟩ := Prod.mk.inj (Except.ok.inj h)
      exact ⟨ds, hds, rfl⟩

/-- One step of reading takes the closing quote, or characters that do not close the text. -/
theorem of_readStep {start : Nat} {c : Option Char} (h : readStep start cs = .ok (c, r)) :
    c = none ∧ cs = '"' :: r ∨ c ≠ none ∧ ∃ ds, IsInert ds ∧ cs = ds ++ r := by
  rw [readStep.eq_def] at h
  split at h
  · cases h
  · cases h
    exact .inl ⟨rfl, rfl⟩
  · cases h
  · obtain ⟨⟨d, q⟩, hu, h⟩ := Attempt.map_eq_ok.mp h
    cases h
    obtain ⟨ds, hds, rfl⟩ := exists_isInert_of_readUnicode hu
    exact .inr ⟨Option.some_ne_none _, ['\\', 'u'] ++ ds,
      (isInert_letter (by decide)).append hds, rfl⟩
  · next d s _ =>
    split at h
    · next hletter =>
      cases h
      have hd : d ≠ '\n' := by
        rintro rfl
        cases hletter
      exact .inr ⟨Option.some_ne_none _, ['\\', d], isInert_letter hd, rfl⟩
    · cases h
  · next d s hquote hlone _ hescape =>
    split at h
    · cases h
    · cases h
      refine .inr ⟨Option.some_ne_none _, [d], isInert_char hquote fun hd => ?_, rfl⟩
      cases r with
      | nil => exact hlone hd rfl
      | cons e s => exact hescape e s hd rfl

/-- A quoted text is read up to the quote that closes it as a token. -/
theorem readQuoted_eq_nil {start : Nat} : ∀ {fuel : Nat} {cs s r : List Char},
    quotedBody (cs ++ rest) = some (cs, rest) → readQuoted start fuel cs = .ok (s, r) → r = []
  | 0, cs, s, r, _, h => by cases h
  | fuel + 1, cs, s, r, hbody, h => by
      rw [readQuoted] at h
      split at h
      · cases h
      · next q hstep =>
        cases h
        rcases of_readStep hstep with ⟨-, rfl⟩ | ⟨hd, -⟩
        · simpa [quotedBody] using hbody
        · exact absurd rfl hd
      · next d q hstep =>
        obtain ⟨⟨s', r'⟩, hrest, h⟩ := Attempt.map_eq_ok.mp h
        cases h
        rcases of_readStep hstep with ⟨hd, -⟩ | ⟨-, ds, hds, rfl⟩
        · cases hd
        · exact readQuoted_eq_nil (quotedBody_of_isInert hds hbody) hrest

theorem exists_of_takes?_quoted {p : Piece} (h : takes? .quoted cs = some p) :
    ∃ r q, cs = '"' :: r ∧ quotedBody r = some q ∧ before ['"'] q = p := by
  unfold takes? at h
  split at h
  · next r heq =>
    obtain ⟨q, hq, rfl⟩ := Option.map_eq_some_iff.mp h
    exact ⟨r, q, rfl, hq, rfl⟩
  all_goals simp_all

/-- Nothing of a quoted text stands behind what is read of it. -/
theorem IsLexed.unquote_eq_nil {t : Token} (h : t.IsLexed) (hk : t.kind = .quoted)
    {s r : List Char} (hread : unquote t.text.tail = .ok (s, r)) : r = [] := by
  obtain ⟨rest, h⟩ := h
  rw [hk] at h
  obtain ⟨r', ⟨body, rest'⟩, hcs, hbody, hp⟩ := exists_of_takes?_quoted (takes?_of_lex h)
  simp only [before, List.singleton_append, Prod.mk.injEq] at hp
  obtain ⟨ht, rfl⟩ := hp
  rw [← ht] at hcs hread
  obtain rfl : body ++ rest' = r' := by simpa using hcs
  exact readQuoted_eq_nil hbody hread

end Quotes

section Numbers

open Text Number

variable {ds rest : List Char}

/-- A decimal digit of any script has the value of an ASCII digit. -/
theorem isDigit_ascii {c : Char} {v : Nat} (h : digitValue? c = some v) :
    (Char.ofNat (48 + v)).isDigit = true := by
  have hv : v ≤ 9 := by
    unfold digitValue? at h
    split at h
    · next hc =>
      cases h
      simp only [Char.isDigit, Bool.and_eq_true, decide_eq_true_eq] at hc
      have : c.toNat ≤ 57 := hc.2
      omega
    · obtain ⟨z, hz, rfl⟩ := Option.map_eq_some_iff.mp h
      have := List.find?_some hz
      simp only [Bool.and_eq_true, decide_eq_true_eq] at this
      omega
  interval_cases v <;> decide

theorem isDigit_of_mem_asciiDigits (h : ∀ c ∈ ds, isDecimalDigit c = true) :
    ∀ c ∈ asciiDigits ds, c.isDigit = true := by
  intro c hc
  obtain ⟨d, hd, rfl⟩ := List.mem_map.mp hc
  obtain ⟨v, hv⟩ := Option.isSome_iff_exists.mp (h d hd)
  rw [hv]
  exact isDigit_ascii hv

theorem asciiDigits_append (cs ds : List Char) :
    asciiDigits (cs ++ ds) = asciiDigits cs ++ asciiDigits ds := List.map_append

theorem asciiDigits_cons {c : Char} (hc : c ∈ ['.', 'e', 'E', '+', '-']) (cs : List Char) :
    asciiDigits (c :: cs) = c :: asciiDigits cs := by
  have hnone : ∀ c ∈ ['.', 'e', 'E', '+', '-'], digitValue? c = none :=
    List.all_iff_forall_prop.mp (by decide)
  rw [asciiDigits, List.map_cons, hnone c hc]
  rfl

theorem isDecimalDigit_of_mem_digitRun (cs : List Char) :
    ∀ c ∈ (digitRun cs).1, isDecimalDigit c = true := fun _ hc => List.mem_takeWhile_imp hc

/-- The digits of a number before its exponent: there are some, around a point or without one. -/
theorem exists_of_mantissa {cs : List Char} {p : Piece} (h : mantissa cs = some p) :
    ∃ w q, (∀ c ∈ w, isDecimalDigit c = true) ∧ (∀ c ∈ q, isDecimalDigit c = true) ∧
      (p.1 = w ∧ w ≠ [] ∨ p.1 = w ++ '.' :: q ∧ (w ≠ [] ∨ q ≠ [])) := by
  have hrun := isDecimalDigit_of_mem_digitRun
  unfold mantissa at h
  dsimp only at h
  split at h
  · next r hr =>
    split_ifs at h with hempty
    cases h
    refine ⟨_, _, hrun cs, hrun r, .inr ⟨rfl, ?_⟩⟩
    simp only [Bool.and_eq_true, List.isEmpty_iff] at hempty
    exact not_and_or.mp hempty
  · split_ifs at h with hempty
    cases h
    exact ⟨_, [], hrun cs, List.forall_mem_nil _, .inl ⟨rfl, by simpa using hempty⟩⟩

/-- The exponent of a number, if there is one, has a letter, perhaps a sign, and digits. -/
theorem exponent_spec (cs : List Char) :
    (exponent cs).1 = [] ∨ ∃ c s ds, c ∈ ['e', 'E'] ∧ s ∈ [[], ['+'], ['-']] ∧ ds ≠ [] ∧
      (∀ d ∈ ds, isDecimalDigit d = true) ∧ (exponent cs).1 = c :: (s ++ ds) := by
  have hrun := isDecimalDigit_of_mem_digitRun
  unfold exponent
  split
  · exact .inl rfl
  next c r =>
    split_ifs with hc
    · dsimp only
      split_ifs with hempty
      · exact .inl rfl
      · refine .inr ⟨c, _, _, by simpa using hc, ?_, by simpa using hempty, hrun _, rfl⟩
        split <;> simp
    · exact .inl rfl

theorem takeSign_of_head {cs : List Char} (h : ∀ c ∈ cs.head?, c ≠ '-' ∧ c ≠ '+') :
    takeSign cs = (false, cs) := by
  unfold takeSign
  split
  · exact absurd rfl (h _ rfl).1
  · exact absurd rfl (h _ rfl).2
  · rfl

theorem ne_sign_of_isDigit {c : Char} (hc : c.isDigit = true) : c ≠ '-' ∧ c ≠ '+' := by
  constructor <;> rintro rfl <;> exact absurd hc (by decide)

/-- An exponent is read as one, and no digit comes before it. -/
theorem takeExponent_exponent (cs : List Char) :
    (∃ e, takeExponent (asciiDigits (exponent cs).1) = (e, [])) ∧
      ∀ c ∈ (asciiDigits (exponent cs).1).head?, c.isDigit = false ∧ c ≠ '.' := by
  rcases exponent_spec cs with h | ⟨c, s, ds, hc, hs, hne, hds, h⟩
  · rw [h]
    exact ⟨⟨none, rfl⟩, by simp [asciiDigits]⟩
  · have hdigits := isDigit_of_mem_asciiDigits hds
    have hne : asciiDigits ds ≠ [] := by simpa [asciiDigits] using hne
    have htake : takeDigits (asciiDigits ds ++ []) = (asciiDigits ds, []) :=
      Numeral.takeDigits_append hdigits (by simp)
    have hplain : takeSign (asciiDigits ds) = (false, asciiDigits ds) :=
      takeSign_of_head fun d hd => ne_sign_of_isDigit (hdigits d (List.mem_of_mem_head? hd))
    rw [List.append_nil] at htake
    have hletter : asciiDigits (c :: (s ++ ds)) = c :: (s ++ asciiDigits ds) := by
      simp only [List.mem_cons, List.not_mem_nil, or_false] at hc hs
      rcases hc with rfl | rfl <;> rcases hs with rfl | rfl | rfl <;>
        simp [asciiDigits_cons]
    have hsign : ∃ n, takeSign (s ++ asciiDigits ds) = (n, asciiDigits ds) := by
      simp only [List.mem_cons, List.not_mem_nil, or_false] at hs
      rcases hs with rfl | rfl | rfl
      · exact ⟨_, hplain⟩
      · exact ⟨_, rfl⟩
      · exact ⟨_, rfl⟩
    obtain ⟨n, hsign⟩ := hsign
    rw [h, hletter]
    constructor
    · have hc : c = 'e' ∨ c = 'E' := by simpa using hc
      have hempty : ¬ (asciiDigits ds).isEmpty = true := by simpa using hne
      refine ⟨some (if n then -(digitsValue (asciiDigits ds) : Int)
        else digitsValue (asciiDigits ds)), ?_⟩
      simp only [takeExponent, if_pos hc, hsign, htake, if_neg hempty]
    · rintro d ⟨⟩
      simp only [List.mem_cons, List.not_mem_nil, or_false] at hc
      rcases hc with rfl | rfl <;> decide

theorem takeSign_digits {w x : List Char} (hw : ∀ c ∈ w, c.isDigit = true)
    (hx : w = [] → ∀ c ∈ x.head?, c ≠ '-' ∧ c ≠ '+') : takeSign (w ++ x) = (false, w ++ x) := by
  refine takeSign_of_head fun c hc => ?_
  cases w with
  | nil => exact hx rfl c hc
  | cons d w =>
      obtain rfl : d = c := Option.some.inj hc
      exact ne_sign_of_isDigit (hw d List.mem_cons_self)

/-- Digits and what is an exponent are read whole. -/
theorem exists_readDecimal_whole {w x : List Char} {e : Option Int}
    (hw : ∀ c ∈ w, c.isDigit = true) (hne : w ≠ [])
    (hx : ∀ c ∈ x.head?, c.isDigit = false ∧ c ≠ '.') (he : takeExponent x = (e, [])) :
    ∃ d, readDecimal (w ++ x) = some (d, []) := by
  refine ⟨⟨digitsValue (w ++ []), e.getD 0 - (0 : Nat)⟩, ?_⟩
  unfold readDecimal
  rw [Numeral.takeDigits_append hw fun c hc => (hx c hc).1]
  dsimp only
  split
  · exact absurd rfl (hx '.' rfl).2
  · simp [he, hne]

/-- Digits around a point and what is an exponent are read whole. -/
theorem exists_readDecimal_point {w q x : List Char} {e : Option Int}
    (hw : ∀ c ∈ w, c.isDigit = true) (hq : ∀ c ∈ q, c.isDigit = true) (hne : w ≠ [] ∨ q ≠ [])
    (hx : ∀ c ∈ x.head?, c.isDigit = false ∧ c ≠ '.') (he : takeExponent x = (e, [])) :
    ∃ d, readDecimal (w ++ '.' :: (q ++ x)) = some (d, []) := by
  refine ⟨⟨digitsValue (w ++ q), e.getD 0 - q.length⟩, ?_⟩
  have hempty : ¬ (w.isEmpty && q.isEmpty) = true := by
    simpa [imp_iff_not_or] using hne
  have hend : ∀ c ∈ x.head?, c.isDigit = false := fun c hc => (hx c hc).1
  unfold readDecimal
  rw [Numeral.takeDigits_append hw (by rintro c ⟨⟩; decide)]
  simp only [Numeral.takeDigits_append hq hend, if_neg hempty, he]

/-- A number without its sign is read whole, and begins with no sign. -/
theorem exists_readDecimal {cs : List Char} {p : Piece} (h : unsigned cs = some p) :
    (∃ d, readDecimal (asciiDigits p.1) = some (d, [])) ∧
      takeSign (asciiDigits p.1) = (false, asciiDigits p.1) := by
  obtain ⟨m, hm, rfl⟩ := Option.map_eq_some_iff.mp h
  obtain ⟨w, q, hw, hq, hcase⟩ := exists_of_mantissa hm
  obtain ⟨⟨e, he⟩, hhead⟩ := takeExponent_exponent m.2
  have hw := isDigit_of_mem_asciiDigits hw
  have hq := isDigit_of_mem_asciiDigits hq
  rcases hcase with ⟨hm, hne⟩ | ⟨hm, hne⟩
  · have hne : asciiDigits w ≠ [] := by simpa [asciiDigits] using hne
    rw [before, hm, asciiDigits_append]
    exact ⟨exists_readDecimal_whole hw hne hhead he, takeSign_digits hw fun h => absurd h hne⟩
  · have hne : asciiDigits w ≠ [] ∨ asciiDigits q ≠ [] := by simpa [asciiDigits] using hne
    rw [before, hm, asciiDigits_append, asciiDigits_append, asciiDigits_cons (by simp),
      List.append_assoc, List.cons_append]
    refine ⟨exists_readDecimal_point hw hq hne hhead he, takeSign_digits hw fun _ => ?_⟩
    rintro c ⟨⟩
    decide

/-- Each number token is the text of a number. -/
theorem IsLexed.exists_number {t : Token} (h : t.IsLexed) (hk : t.kind = .number) :
    ∃ x, Number.read? (asciiDigits t.text) = some x := by
  obtain ⟨rest, h⟩ := h
  rw [hk] at h
  have hnumber : numberPiece (t.text ++ rest) = some (t.text, rest) := takes?_of_lex h
  unfold numberPiece at hnumber
  split at hnumber
  · obtain ⟨p, hp, hpt⟩ := Option.map_eq_some_iff.mp hnumber
    obtain ⟨⟨d, hd⟩, -⟩ := exists_readDecimal hp
    have ht : t.text = '-' :: p.1 := (congrArg Prod.fst hpt).symm
    refine ⟨ofDecimal true d, ?_⟩
    rw [ht, asciiDigits_cons (by simp), read?, takeSign, hd]
  · obtain ⟨⟨d, hd⟩, hsign⟩ := exists_readDecimal hnumber
    exact ⟨ofDecimal false d, by simp only [read?, hsign, hd]⟩

end Numbers

section Values

/-- Whether a token has the value that its class promises: a number, an operator, or a text that
takes up all that stands between its quotes, if it takes up anything. -/
structure HasValue (t : Token) : Prop where
  number : t.kind = .number → ∃ x, Number.read? (Text.asciiDigits t.text) = some x
  sign : t.kind = .sign → ∃ o, Parser.signs.lookup t.text = some o
  quoted : t.kind = .quoted → ∀ s r, Text.unquote t.text.tail = .ok (s, r) → r = []

/-- Whatever is taken for a token has its value. -/
theorem IsLexed.hasValue {t : Token} (h : t.IsLexed) : t.HasValue where
  number := h.exists_number
  sign := h.exists_operator
  quoted hk _ _ := h.unquote_eq_nil hk

end Values

end Token
end Rule
end Eligibility
