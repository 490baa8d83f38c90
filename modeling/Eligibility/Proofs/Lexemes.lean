import Mathlib.Data.Bool.AllAny
import Eligibility.Proofs.Numerals
import Eligibility.Proofs.Quoting
/-!
# The tokens of printed rules

**Lexemes.**  A lexeme is a token without its place.  A text splits into lexemes when its
tokens have them; this is built up from the end of a text: a blank in front adds
nothing, and what one class of tokens takes in front adds one lexeme.  Where a number is not
finite a text may have no tokens at all, and what is built up says what they are otherwise.

**Rules.**  The lexemes of a rule follow its form.  No lexeme of a rule runs on into what
stands behind it, since a blank, a mark or the end does.

**Results.**
* `Splits.blank`, `Splits.token`: how a text splits from its front.
* `renders_printChars`: the text of a rule splits into the lexemes of the rule.
* `exists_split_printChars`: it does if its numbers are written as numerals.
* `lexemes_of_split`: its tokens, if any, have them in any case.
-/

namespace Eligibility

/-- The numbers that a head states. -/
def Head.numbers (h : Head) : List Number :=
  h.confidence.toList ++
    match h.value with
    | some (.number x) => [x]
    | _ => []

theorem Head.mem_numbers {h : Head} {x : Number} :
    x ∈ h.numbers ↔ h.confidence = some x ∨ h.value = some (.number x) := by
  rw [numbers, List.mem_append, Option.mem_toList]
  refine or_congr Iff.rfl ?_
  split
  · next y hy => simp [hy, eq_comm]
  · next hne => simpa using fun hx => hne x hx

theorem Head.mem_numbers_confidence {h : Head} {x : Number} (hx : h.confidence = some x) :
    x ∈ h.numbers := mem_numbers.mpr (.inl hx)

theorem Head.mem_numbers_value {h : Head} {x : Number} (hx : h.value = some (.number x)) :
    x ∈ h.numbers := mem_numbers.mpr (.inr hx)

namespace Rule

/-- A token without its place. -/
abbrev Lexeme := TokenClass × List Char

/-- The lexeme of a token. -/
def Token.lexeme (t : Token) : Lexeme := (t.kind, t.text)

/-- A text has tokens of given lexemes, from any place on and in as many steps as it has
characters; or it has none, where that is allowed. -/
def Splits (lax : Bool) (cs : List Char) (ls : List Lexeme) : Prop :=
  ∀ fuel position, cs.length ≤ fuel →
    (∃ ts, Token.splitFrom fuel position cs = .ok ts ∧ ts.map Token.lexeme = ls) ∨
      lax = true ∧ ∃ e, Token.splitFrom fuel position cs = .error e

/-- The characters that end every lexeme before them. -/
def stops : List Char := [' ', '(', ')', ',', '}', ']', '=']

/-- A text ends every lexeme before it. -/
def Ends (rest : List Char) : Prop := ∀ c ∈ rest.head?, c ∈ stops

/-- A text splits into given lexemes, whatever ends it. -/
def Renders (lax : Bool) (cs : List Char) (ls : List Lexeme) : Prop :=
  ∀ rest ms, Ends rest → Splits lax rest ms → Splits lax (cs ++ rest) (ls ++ ms)

variable {lax : Bool}

section Splitting

variable {cs rest : List Char} {ls ms : List Lexeme}

theorem splits_nil : Splits lax [] [] := by
  intro fuel position _
  exact .inl ⟨[], by cases fuel <;> rfl, rfl⟩

theorem Splits.blank (h : Splits lax cs ls) : Splits lax (' ' :: cs) ls := by
  intro fuel position hlen
  obtain ⟨fuel, rfl⟩ : ∃ k, fuel = k + 1 := ⟨fuel - 1, by simp at hlen; omega⟩
  have hb : Text.isBlank ' ' = true := by decide
  simpa [Token.splitFrom, hb] using h fuel (position + 1) (by simpa using hlen)

/-- A token in front of a text adds one lexeme. -/
theorem Splits.token {k : TokenClass} {c : Char} {t : List Char} (hb : Text.isBlank c = false)
    (hlex : Token.lex (c :: t ++ rest) = some (k, c :: t, rest)) (h : Splits lax rest ls) :
    Splits lax (c :: t ++ rest) ((k, c :: t) :: ls) := by
  intro fuel position hlen
  obtain ⟨fuel, rfl⟩ : ∃ k, fuel = k + 1 := ⟨fuel - 1, by simp at hlen; omega⟩
  rw [List.cons_append] at hlex ⊢
  refine (h fuel (position + (c :: t).length) (by simp at hlen; omega)).imp ?_ ?_
  · rintro ⟨ts, hts, hls⟩
    refine ⟨⟨k, c :: t, position⟩ :: ts, ?_, by simp [Token.lexeme, hls]⟩
    simp only [Token.splitFrom, hb, Bool.false_eq_true, if_false, hlex, hts, Except.map]
  · rintro ⟨hlax, e, he⟩
    refine ⟨hlax, e, ?_⟩
    simp only [Token.splitFrom, hb, Bool.false_eq_true, if_false, hlex, he, Except.map]

theorem Ends.head {c : Char} (hc : c ∈ stops) (cs : List Char) : Ends (c :: cs) := by
  rintro d ⟨⟩
  exact hc

theorem ends_nil : Ends [] := by simp [Ends]

theorem Ends.endsNumber (h : Ends rest) : EndsNumber rest := by
  have : ∀ c ∈ stops, Text.isDecimalDigit c = false ∧ c ≠ '.' ∧ c ≠ 'e' ∧ c ≠ 'E' :=
    List.all_iff_forall_prop.mp (by decide)
  exact fun c hc => this c (h c hc)

end Splitting

section Classes

variable {rest : List Char} {ls : List Lexeme}

/-- A character that begins neither a quoted text nor a back-quoted name nor a number. -/
def IsPlainStart (c : Char) : Prop :=
  Text.isBlank c = false ∧ Text.isDecimalDigit c = false ∧ c ≠ '-' ∧ c ≠ '.' ∧ c ≠ '"' ∧ c ≠ '`'

instance : DecidablePred IsPlainStart := fun _ =>
  inferInstanceAs (Decidable (_ ∧ _ ∧ _ ∧ _ ∧ _ ∧ _))

theorem numberPiece_eq_none {c : Char} (hc : IsPlainStart c) :
    Token.numberPiece (c :: rest) = none := by
  obtain ⟨-, hd, hm, hp, -, -⟩ := hc
  have hrun : Token.digitRun (c :: rest) = ([], c :: rest) := by simp [Token.digitRun, hd]
  have hu : Token.unsigned (c :: rest) = none := by
    simp [Token.unsigned, Token.mantissa, hrun, hp]
  rw [Token.numberPiece.eq_def]
  split
  · simp_all
  · exact hu

theorem signPiece_eq_none {c : Char} (hc : c ∉ ['=', '!', '<', '>']) :
    Token.signPiece (c :: rest) = none := by
  rw [Token.signPiece.eq_def]
  split <;> simp_all

/-- What begins like nothing else is a sign, a mark or a word. -/
theorem lex_of_isPlainStart {c : Char} (hc : IsPlainStart c) :
    Token.lex (c :: rest) =
      match Token.signPiece (c :: rest) with
      | some p => some (.sign, p)
      | none =>
          if Token.marks.contains c then some (.mark, [c], rest)
          else (Token.wordPiece (c :: rest)).map fun p => (.word, p) := by
  have ⟨_, _, _, _, hq, ht⟩ := hc
  cases hs : Token.signPiece (c :: rest) <;>
    simp [Token.lex, hq, ht, numberPiece_eq_none hc, hs]

/-- A mark as a lexeme. -/
def mark (c : Char) : Lexeme := (.mark, [c])

/-- The marks other than the equality mark end themselves. -/
theorem Splits.mark {c : Char} (hc : c ∈ ['(', ')', ',', '{', '}', '[', ']'])
    (h : Splits lax rest ls) : Splits lax (c :: rest) (mark c :: ls) := by
  have hfacts : ∀ c ∈ ['(', ')', ',', '{', '}', '[', ']'], IsPlainStart c ∧
      c ∉ ['=', '!', '<', '>'] ∧ Token.marks.contains c = true :=
    List.all_iff_forall_prop.mp (by decide)
  obtain ⟨hplain, hs, hmark⟩ := hfacts c hc
  refine Splits.token (t := []) hplain.1 ?_ h
  rw [List.singleton_append, lex_of_isPlainStart hplain, signPiece_eq_none hs]
  exact if_pos hmark

/-- The equality mark ends before anything but another one. -/
theorem Splits.equals (hr : rest.head? ≠ some '=') (h : Splits lax rest ls) :
    Splits lax ('=' :: rest) (Rule.mark '=' :: ls) := by
  have hs : Token.signPiece ('=' :: rest) = none := by
    rw [Token.signPiece.eq_def]
    split <;> simp_all
  refine Splits.token (t := []) (by decide) ?_ h
  rw [List.singleton_append, lex_of_isPlainStart (by decide), hs]
  rfl

/-- A comparison sign ends before a blank. -/
theorem Splits.sign {c : Char} {t : List Char}
    (hc : c :: t ∈ [['=', '='], ['!', '='], ['<'], ['<', '='], ['>'], ['>', '=']])
    (h : Splits lax rest ls) : Splits lax (c :: t ++ ' ' :: rest) ((.sign, c :: t) :: ls) := by
  obtain ⟨hplain, hs⟩ : IsPlainStart c ∧
      Token.signPiece (c :: t ++ ' ' :: rest) = some (c :: t, ' ' :: rest) := by
    simp only [List.mem_cons, List.cons.injEq, List.not_mem_nil, or_false] at hc
    rcases hc with ⟨rfl, rfl⟩ | ⟨rfl, rfl⟩ | ⟨rfl, rfl⟩ | ⟨rfl, rfl⟩ | ⟨rfl, rfl⟩ | ⟨rfl, rfl⟩ <;>
      exact ⟨by decide, rfl⟩
  refine Splits.token hplain.1 ?_ h.blank
  rw [List.cons_append] at hs ⊢
  rw [lex_of_isPlainStart hplain, hs]

/-- What holds of the characters below a bound holds of one that is below it. -/
theorem of_toNat_lt {p : Char → Prop} {n : Nat} (h : ∀ k < n, p (Char.ofNat k)) {c : Char}
    (hc : c.toNat < n) : p c := by
  simpa [Char.ofNat_toNat] using h c.toNat hc

/-- The characters that begin identifiers are among the ASCII letters and the low line. -/
theorem isPlainStart_of_startsIdentifier {c : Char} (hc : startsIdentifier c = true) :
    IsPlainStart c ∧ c ∉ ['=', '!', '<', '>'] ∧ Token.marks.contains c = false := by
  have hlt : c.toNat < 123 := by
    have hc : (c.isUpper || c.isLower || c == '_') = true := hc
    obtain (h | h) | rfl : (c.isUpper ∨ c.isLower) ∨ c = '_' := by simpa using hc
    · exact Nat.lt_of_le_of_lt (of_decide_eq_true h).2 (by decide)
    · have h := of_decide_eq_true (Bool.and_eq_true_iff.mp h).2
      exact Nat.lt_of_le_of_lt h (by decide)
    · decide
  refine of_toNat_lt (p := fun c => startsIdentifier c = true → IsPlainStart c ∧
    c ∉ ['=', '!', '<', '>'] ∧ Token.marks.contains c = false) ?_ hlt hc
  decide +kernel

/-- A word ends where no character of an identifier follows. -/
theorem renders_word {w : List Char} (hw : isIdentifier w = true) :
    Renders lax w [(.word, w)] := by
  intro rest ms hr h
  match w, hw with
  | c :: t, hw =>
  obtain ⟨hc, ht⟩ := Bool.and_eq_true_iff.mp hw
  obtain ⟨hplain, hs, hmark⟩ := isPlainStart_of_startsIdentifier hc
  refine Splits.token hplain.1 ?_ h
  have ht : ∀ d ∈ t, continuesIdentifier d = true := List.all_eq_true.mp ht
  have hstop : ∀ d ∈ stops, continuesIdentifier d = false :=
    List.all_iff_forall_prop.mp (by decide)
  have hend : rest.takeWhile continuesIdentifier = [] ∧
      rest.dropWhile continuesIdentifier = rest := by
    cases rest with
    | nil => simp
    | cons d r => simp [hstop d (hr d rfl)]
  rw [List.cons_append, lex_of_isPlainStart hplain, signPiece_eq_none hs, hmark]
  simp only [Bool.false_eq_true, if_false, Token.wordPiece, hc, if_true, Option.map_some,
    List.takeWhile_append_of_pos ht, List.dropWhile_append_of_pos ht, hend, List.append_nil]

/-- A quoted text as a lexeme. -/
def quoted (s : String) : Lexeme := (.quoted, Text.quoteChars s.toList)

theorem renders_quoted (s : String) : Renders lax (Text.quoteChars s.toList) [quoted s] := by
  intro rest ms _ h
  refine Splits.token (by decide) ?_ h
  simp [Token.lex, Text.quotedBody_escape, Token.before]

/-- The character that begins a numeral begins no other lexeme. -/
theorem of_isDigit_or_minus {c : Char} (hc : c.isDigit = true ∨ c = '-') :
    Text.isBlank c = false ∧ c ≠ '"' ∧ c ≠ '`' := by
  have hlt : c.toNat < 58 := by
    rcases hc with hc | rfl
    · simp only [Char.isDigit, Bool.and_eq_true, decide_eq_true_eq] at hc
      exact Nat.lt_of_le_of_lt hc.2 (by decide)
    · decide
  refine of_toNat_lt (p := fun c => c.isDigit = true ∨ c = '-' →
    Text.isBlank c = false ∧ c ≠ '"' ∧ c ≠ '`') ?_ hlt hc
  decide +kernel

/-- A number whose text is a numeral is one lexeme. -/
theorem renders_number (b : Bool) (n : Numeral) :
    Renders lax (n.signed b) [(.number, n.signed b)] := by
  intro rest ms hr h
  have hpiece := n.numberPiece_signed b hr.endsNumber
  obtain ⟨c, t, hct, hc⟩ := n.exists_signed_eq b
  rw [hct] at hpiece ⊢
  obtain ⟨hb, hq, ht⟩ := of_isDigit_or_minus hc
  refine Splits.token hb ?_ h
  rw [List.cons_append] at hpiece ⊢
  rw [Token.lex]
  simp only [hq, ht, if_false, hpiece]

theorem tickedBody_doubleTicks (name : List Char) (hr : Ends rest) :
    Token.tickedBody (doubleTicks name ++ '`' :: rest) =
      some (doubleTicks name ++ ['`'], rest) := by
  induction name with
  | nil =>
      have hne : ∀ r, rest ≠ '`' :: r := by
        rintro r rfl
        exact absurd (hr _ rfl) (by decide)
      rw [doubleTicks, List.nil_append, Token.tickedBody.eq_3 _ hne, List.nil_append]
  | cons c name ih =>
      by_cases hc : c = '`'
      · simp [doubleTicks, hc, Token.tickedBody, ih, Token.before]
      · rw [doubleTicks, if_neg hc, List.cons_append, Token.tickedBody.eq_def]
        split <;> simp_all [Token.before]

theorem renders_ticked (name : List Char) :
    Renders lax ('`' :: (doubleTicks name ++ ['`']))
      [(.ticked, '`' :: (doubleTicks name ++ ['`']))] := by
  intro rest ms hr h
  refine Splits.token (by decide) ?_ h
  simp [Token.lex, tickedBody_doubleTicks name hr, Token.before]

end Classes

section Lists

/-- Lexemes one after the other, each but the first behind a comma. -/
def commaLexemes : List (List Lexeme) → List Lexeme
  | [] => []
  | [x] => x
  | x :: r => x ++ mark ',' :: commaLexemes r

/-- Texts split one by one when they stand one after the other, each but the first behind a
comma. -/
theorem renders_commaList {ts : List (List Char)} {lss : List (List Lexeme)}
    (h : List.Forall₂ (Renders lax) ts lss) : Renders lax (commaList ts) (commaLexemes lss) := by
  intro rest ms hr hms
  induction h with
  | nil => exact hms
  | @cons t ls ts lss ht h ih =>
      cases h with
      | nil => exact ht rest ms hr hms
      | cons _ _ =>
          -- the comma ends the text before it, and the blank behind the comma adds no lexeme
          rw [commaList, commaLexemes, List.append_assoc, List.append_assoc]
          · exact ht _ _ (Ends.head (by decide) _) (ih.blank.mark (by decide))
          · simp
          · simp

theorem renders_commaList_map {α : Type} {f : α → List Char} {g : α → List Lexeme} {xs : List α}
    (h : ∀ x ∈ xs, Renders lax (f x) (g x)) :
    Renders lax (commaList (xs.map f)) (commaLexemes (xs.map g)) := by
  refine renders_commaList ?_
  rw [List.forall₂_map_left_iff, List.forall₂_map_right_iff, List.forall₂_same]
  exact h

end Lists

section Rules

/-- A variable as a lexeme. -/
def variableLexeme (name : List Char) : Lexeme :=
  (if isIdentifier name && !words.contains name then .word else .ticked, variableText name)

theorem renders_variable (name : List Char) :
    Renders lax (variableText name) [variableLexeme name] := by
  unfold variableText variableLexeme variableText
  split
  · next h => exact renders_word (Bool.and_eq_true_iff.mp h).1
  · exact renders_ticked name

/-- The lexemes of the sign of a comparison. -/
def signLexemes (o : Operator) : List Lexeme :=
  match o with
  | .isIn => [(.word, "in".toList)]
  | .notIn => [(.word, "not".toList), (.word, "in".toList)]
  | o => [(.sign, o.symbol.toList)]

theorem Splits.comparison {o : Operator} (ho : o.isLogical = false) {rest : List Char}
    {ls : List Lexeme} (h : Splits lax rest ls) :
    Splits lax (o.symbol.toList ++ ' ' :: rest) (signLexemes o ++ ls) := by
  have hstop := Ends.head (show ' ' ∈ stops by decide)
  have hin : isIdentifier "in".toList = true := by decide
  have hnot : isIdentifier "not".toList = true := by decide
  cases o with
  | isIn => exact renders_word hin _ _ (hstop _) h.blank
  | notIn =>
      -- two words, the second one split off before the first
      exact renders_word hnot (' ' :: ("in".toList ++ ' ' :: rest)) _ (hstop _)
        (renders_word hin _ _ (hstop _) h.blank).blank
  | and => cases ho
  | or => cases ho
  | not => cases ho
  | _ => exact Splits.sign (by decide) h

/-- A number as a lexeme; one that is not finite is a word, if it is a lexeme at all. -/
def numberLexeme (x : Number) : Lexeme := (if x.isFinite then .number else .word, x.brief)

/-- The lexemes of an operand. -/
def operandLexemes : Operand → List Lexeme
  | .number x => [numberLexeme x]
  | .text s => [quoted s]
  | .flag b => [(.word, Operand.flagText b)]
  | .texts s => mark '[' :: (commaLexemes (s.members.map fun s => [quoted s]) ++ [mark ']'])

/-- A finite number is written as a numeral.  The others have no numerals, and are left where a
text may have no tokens. -/
def HasNumeral (lax : Bool) (x : Number) : Prop :=
  (x.isFinite = true ∧ ∃ (n : Numeral) (b : Bool), x.brief = n.signed b) ∨
    lax = true ∧ x.isFinite = false

/-- A minus sign before a letter is no token. -/
theorem splits_negInf (rest : List Char) (ls : List Lexeme) :
    Splits true ('-' :: 'i' :: rest) ls := by
  intro fuel position hlen
  obtain ⟨fuel, rfl⟩ : ∃ k, fuel = k + 1 := ⟨fuel - 1, by simp at hlen; omega⟩
  have hrun : Token.digitRun ('i' :: rest) = ([], 'i' :: rest) := by
    have hd : Text.isDecimalDigit 'i' = false := by decide
    simp [Token.digitRun, hd]
  have hnumber : Token.numberPiece ('-' :: 'i' :: rest) = none := by
    simp [Token.numberPiece, Token.unsigned, Token.mantissa, hrun]
  have hlex : Token.lex ('-' :: 'i' :: rest) = none := by
    simp [Token.lex, hnumber, Token.signPiece, Token.marks, Token.wordPiece, startsIdentifier]
  have hb : Text.isBlank '-' = false := by decide
  exact .inr ⟨rfl, (position, '-'), by simp [Token.splitFrom, hb, hlex]⟩

theorem renders_numberLexeme {x : Number} (hx : HasNumeral lax x) :
    Renders lax x.brief [numberLexeme x] := by
  rcases hx with ⟨hfinite, n, b, hx⟩ | ⟨rfl, hx⟩
  · rw [numberLexeme, if_pos hfinite, hx]
    exact renders_number b n
  · cases x with
    | nan m => exact renders_word (show isIdentifier ['n', 'a', 'n'] = true by decide)
    | posInf => exact renders_word (by decide)
    | negInf => exact fun rest ms _ _ => splits_negInf ('n' :: 'f' :: rest) _
    | negZero => cases hx
    | finite q => cases hx

/-- No number begins with an equality mark. -/
theorem head?_brief_ne {x : Number} (hx : HasNumeral lax x) (rest : List Char) :
    (x.brief ++ rest).head? ≠ some '=' := by
  rcases hx with ⟨-, n, b, hx⟩ | ⟨-, hx⟩
  · obtain ⟨c, t, hct, hc⟩ := n.exists_signed_eq b
    rw [hx, hct]
    rintro ⟨⟩
    exact absurd hc (by decide)
  · cases x with
    | nan m => exact (by decide : some 'n' ≠ some '=')
    | posInf => exact (by decide : some 'i' ≠ some '=')
    | negInf => exact (by decide : some '-' ≠ some '=')
    | negZero => cases hx
    | finite q => cases hx

theorem quotedList_eq : ∀ (first : Bool) (ss : List String),
    Operand.quotedList first ss =
      (if first || ss.isEmpty then [] else [',', ' ']) ++
        commaList (ss.map fun s => Text.quoteChars s.toList)
  | first, [] => by simp [Operand.quotedList, commaList]
  | first, [s] => by cases first <;> simp [Operand.quotedList, commaList]
  | first, s :: t :: r => by
      have ih := quotedList_eq false (t :: r)
      cases first <;> simp_all [Operand.quotedList, commaList]

theorem renders_operand {v : Operand} (hv : ∀ x, v = .number x → HasNumeral lax x) :
    Renders lax v.chars (operandLexemes v) := by
  cases v with
  | number x => exact renders_numberLexeme (hv x rfl)
  | text s => exact renders_quoted s
  | flag b => cases b <;> exact renders_word (by decide)
  | texts s =>
      intro rest ms hr h
      have hlist : Renders lax (commaList (s.members.map fun s => Text.quoteChars s.toList))
          (commaLexemes (s.members.map fun s => [quoted s])) :=
        renders_commaList_map fun s _ => renders_quoted s
      have hclose := hlist _ _ (Ends.head (by decide) rest) (h.mark (c := ']') (by decide))
      simpa [Operand.chars, quotedList_eq, operandLexemes] using hclose.mark (c := '[') (by decide)

/-- A key of an annotation with its value. -/
inductive Entry where
  | text (key value : String)
  | confidence (x : Number)

/-- The key of an entry. -/
def Entry.key : Entry → String
  | text k _ => k
  | confidence _ => "confidence"

/-- The value of an entry as a lexeme. -/
def Entry.value : Entry → Lexeme
  | text _ s => quoted s
  | confidence x => numberLexeme x

/-- The lexemes of an entry. -/
def Entry.lexemes (e : Entry) : List Lexeme := [(.word, e.key.toList), mark '=', e.value]

/-- The entries of the annotation of a head. -/
def entries (h : Head) : List Entry :=
  [.text "id" h.id] ++ (if h.operator.isLogical then [.text "var" h.subject] else []) ++
    [.text "clause" h.clause] ++ h.confidence.toList.map .confidence ++
    h.group.toList.map (.text "group")

/-- The lexemes of the annotation of a head. -/
def annotationLexemes (h : Head) : List Lexeme :=
  mark '{' :: (commaLexemes ((entries h).map Entry.lexemes) ++ [mark '}'])

theorem annotationFields_eq (h : Head) :
    annotationFields h = (entries h).map fun e => e.key.toList ++ '=' :: e.value.2 := by
  have hkey : "confidence=".toList = "confidence".toList ++ ['='] := by decide
  unfold annotationFields entries
  cases h.operator.isLogical <;> cases h.confidence <;> cases h.group <;>
    simp [quotedField, Entry.key, Entry.value, numberLexeme, quoted, hkey]

/-- The entries of an annotation have the keys of annotations, and among numbers only the
confidence. -/
theorem of_mem_entries {h : Head} {e : Entry} (he : e ∈ entries h) :
    (∃ k s, e = .text k s ∧ k ∈ ["id", "var", "clause", "group"] ∧
      (k = "var" → h.operator.isLogical = true)) ∨
    ∃ x, e = .confidence x ∧ h.confidence = some x := by
  simp only [entries, List.mem_append, List.mem_singleton, List.mem_map, Option.mem_toList] at he
  rcases he with (((rfl | he) | rfl) | ⟨x, hx, rfl⟩) | ⟨g, -, rfl⟩
  · exact .inl ⟨"id", h.id, rfl, by simp, by simp⟩
  · split at he
    · next ho => exact .inl ⟨"var", h.subject, List.mem_singleton.mp he, by simp, fun _ => ho⟩
    · cases he
  · exact .inl ⟨"clause", h.clause, rfl, by simp, by simp⟩
  · exact .inr ⟨x, rfl, hx⟩
  · exact .inl ⟨"group", g, rfl, by simp, by simp⟩

/-- The key of an entry is a word, and its value is not taken with the equality mark before
it. -/
theorem renders_entry {h : Head} (hx : ∀ x, h.confidence = some x → HasNumeral lax x) {e : Entry}
    (he : e ∈ entries h) : Renders lax (e.key.toList ++ '=' :: e.value.2) e.lexemes := by
  have hkeys : ∀ k ∈ ["id", "var", "clause", "group"], isIdentifier k.toList = true := by decide
  obtain ⟨hkey, hvalue, hne⟩ : isIdentifier e.key.toList = true ∧ Renders lax e.value.2 [e.value] ∧
      ∀ rest, (e.value.2 ++ rest).head? ≠ some '=' := by
    rcases of_mem_entries he with ⟨k, s, rfl, hk, -⟩ | ⟨x, rfl, hsome⟩
    · exact ⟨hkeys k hk, renders_quoted s, fun rest => by
        simp [Entry.value, quoted, Text.quoteChars]⟩
    · have hkey : isIdentifier "confidence".toList = true := by decide
      exact ⟨hkey, renders_numberLexeme (hx x hsome), head?_brief_ne (hx x hsome)⟩
  intro rest ms hr hms
  have := renders_word hkey _ _ (Ends.head (by decide) _)
    (Splits.equals (hne rest) (hvalue rest ms hr hms))
  simpa [Entry.lexemes] using this

theorem annotation_renders {h : Head} (hx : ∀ x, h.confidence = some x → HasNumeral lax x) :
    Renders lax ( annotation h) (annotationLexemes h) := by
  intro rest ms hr hms
  have hlist : Renders lax (commaList (annotationFields h))
      (commaLexemes ((entries h).map Entry.lexemes)) := by
    rw [annotationFields_eq]
    exact renders_commaList_map fun e he => renders_entry hx he
  have hclose := hlist _ _ (Ends.head (by decide) rest) (hms.mark (c := '}') (by decide))
  simpa [ annotation, annotationLexemes] using hclose.mark (c := '{') (by decide)

/-- What follows a rule, as lexemes. -/
def suffixLexemes (annotate : Bool) (h : Head) : List Lexeme :=
  if annotate then annotationLexemes h else []

theorem renders_suffix {h : Head} (hx : ∀ x, h.confidence = some x → HasNumeral lax x)
    (annotate : Bool) : Renders lax (suffix annotate h) (suffixLexemes annotate h) := by
  intro rest ms hr hms
  cases annotate with
  | false => exact hms
  | true => exact (annotation_renders hx rest ms hr hms).blank

/-- The lexemes of a comparison with an operand. -/
def comparisonLexemes (h : Head) (v : Operand) : List Lexeme :=
  variableLexeme h.subject.toList :: (signLexemes h.operator ++ operandLexemes v)

mutual

/-- The lexemes of a rule. -/
def lexemes (annotate : Bool) : Rule → List Lexeme
  | node h cs =>
      (if h.operator.isLogical then
        (.word, h.operator.name.toList) :: mark '(' ::
          (commaLexemes (lexemesAll annotate cs) ++ [mark ')'])
      else h.value.elim [] (comparisonLexemes h)) ++ suffixLexemes annotate h

/-- The lexemes of several rules. -/
def lexemesAll (annotate : Bool) : List Rule → List (List Lexeme)
  | [] => []
  | r :: rs => lexemes annotate r :: lexemesAll annotate rs

end

theorem ends_suffix {rest : List Char} (hr : Ends rest) (annotate : Bool) (h : Head) :
    Ends (suffix annotate h ++ rest) := by
  cases annotate with
  | false => exact hr
  | true => exact Ends.head (by decide) _

theorem renders_comparison {h : Head} {v : Operand} (ho : h.operator.isLogical = false)
    (hv : ∀ x, v = .number x → HasNumeral lax x) :
    Renders lax (comparisonText h v) (comparisonLexemes h v) := by
  intro rest ms hr hms
  have hsign := Splits.comparison ho (renders_operand hv rest ms hr hms)
  have := renders_variable h.subject.toList _ _ (Ends.head (by decide) _) hsign.blank
  simpa [comparisonText, comparisonLexemes] using this

mutual

/-- The text of a rule splits into the lexemes of the rule. -/
theorem renders_printChars (annotate : Bool) : ∀ (r : Rule) (t : List Char),
    (∀ h ∈ r.heads, ∀ x ∈ h.numbers, HasNumeral lax x) → printChars annotate r = some t →
      Renders lax t (lexemes annotate r)
  | node h cs, t, hx, ht => by
      have hh := hx h (by simp [heads])
      have hsuffix := renders_suffix (fun x hc => hh x (Head.mem_numbers_confidence hc)) annotate
      intro rest ms hr hms
      -- from the end of the text: the annotation, then what it stands behind
      have hrest := hsuffix rest ms hr hms
      rw [printChars] at ht
      rw [lexemes]
      split at ht
      · next ho =>
        obtain ⟨ts, hts, rfl⟩ := Option.map_eq_some_iff.mp ht
        have hbelow := renders_commaList
          (renders_printAll annotate cs ts (fun k hk => hx k (by simp [heads, hk])) hts)
        have hclose := hbelow _ _ (Ends.head (by decide) _) (hrest.mark (c := ')') (by decide))
        have hname : isIdentifier h.operator.name.toList = true := by
          cases h.operator <;> rfl
        have := renders_word hname _ _ (Ends.head (by decide) _)
          (hclose.mark (c := '(') (by decide))
        simpa [ho] using this
      · next ho =>
        obtain ⟨v, hv, rfl⟩ := Option.map_eq_some_iff.mp ht
        have hcomparison := renders_comparison (by simpa using ho)
          (fun x hvx => hh x (Head.mem_numbers_value (hv.trans (congrArg some hvx))))
        have := hcomparison _ _ (ends_suffix hr annotate h) hrest
        simpa [ho, hv] using this

theorem renders_printAll (annotate : Bool) : ∀ (rs : List Rule) (ts : List (List Char)),
    (∀ h ∈ headsOf rs, ∀ x ∈ h.numbers, HasNumeral lax x) → printAll annotate rs = some ts →
      List.Forall₂ (Renders lax) ts (lexemesAll annotate rs)
  | [], ts, _, ht => by
      cases ht
      exact .nil
  | r :: rs, ts, hx, ht => by
      rw [printAll] at ht
      split at ht
      · next t us hr hrs =>
        cases ht
        exact .cons (renders_printChars annotate r t (fun h hh => hx h (by simp [headsOf, hh])) hr)
          (renders_printAll annotate rs us (fun h hh => hx h (by simp [headsOf, hh])) hrs)
      · cases ht

end

theorem splits_printChars {annotate : Bool} {r : Rule} {t : List Char}
    (hx : ∀ h ∈ r.heads, ∀ x ∈ h.numbers, HasNumeral lax x) (ht : printChars annotate r = some t) :
    Splits lax t (lexemes annotate r) := by
  simpa using renders_printChars annotate r t hx ht [] [] ends_nil splits_nil

theorem exists_split_printChars {annotate : Bool} {r : Rule} {t : List Char}
    (hx : ∀ h ∈ r.heads, ∀ x ∈ h.numbers, HasNumeral false x)
    (ht : printChars annotate r = some t) :
    ∃ ts, Token.split t = .ok ts ∧ ts.map Token.lexeme = lexemes annotate r := by
  rcases splits_printChars hx ht t.length 0 le_rfl with h | ⟨hlax, -⟩
  · exact h
  · cases hlax

/-- The lexemes of a rule's text are those of the rule, if it has any. -/
theorem lexemes_of_split {annotate : Bool} {r : Rule} {t : List Char} {ts : List Token}
    (hx : ∀ h ∈ r.heads, ∀ x ∈ h.numbers, HasNumeral true x) (ht : printChars annotate r = some t)
    (hts : Token.split t = .ok ts) : ts.map Token.lexeme = lexemes annotate r := by
  rcases splits_printChars hx ht t.length 0 le_rfl with ⟨us, hus, h⟩ | ⟨-, e, he⟩
  · obtain rfl : ts = us := Except.ok.inj (hts.symm.trans hus)
    exact h
  · cases hts.symm.trans he

end Rules

end Rule
end Eligibility
