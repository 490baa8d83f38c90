import Eligibility.CommandLine
import Eligibility.Proofs.JsonText
import Eligibility.Proofs.RoundTrip
/-!
# Printed rules and lines

**Lines.**  A line ends at a line feed, a carriage return or one of the other characters that
break lines; a carriage return and the line feed behind it end one line.

**Texts of rules.**  Identifiers, clauses, groups and texts are quoted and lose their line breaks
with that, and so does the variable of a logical rule.  The variable of a comparison stands between
back quotes as it is.  So a rule is printed on one line exactly if no variable of a comparison in
it breaks lines.

**Results.**
* `Text.length_splitLines_flatMap`: how many lines there are where each text ends with a line feed.
* `Rule.hasBreak_printChars`: the line breaks of the text of a rule.
* `CommandLine.print_lines_iff`: when the rules of a payload are printed on one line each.
* `CommandLine.not_forall_one_line`: they are not always.
-/

namespace Eligibility

namespace Text

section Lines

/-- Whether a line ends at a character: feeds, the carriage return, the separators of files, groups
and records, the next-line control, and the separators of lines and paragraphs. -/
def isLineBreak (c : Char) : Bool :=
  [10, 11, 12, 13, 28, 29, 30, 133, 8232, 8233].contains c.toNat

/-- Whether a text breaks lines. -/
def hasBreak (cs : List Char) : Bool := cs.any isLineBreak

/-- Lines with a character put before the first of them. -/
def prepend (c : Char) : List (List Char) → List (List Char)
  | [] => [[c]]
  | l :: ls => (c :: l) :: ls

/-- The lines of a text without the characters that end them. -/
def splitLines : List Char → List (List Char)
  | [] => []
  | '\r' :: '\n' :: r => [] :: splitLines r
  | c :: r => if isLineBreak c then [] :: splitLines r else prepend c (splitLines r)

variable {c : Char} {r t : List Char}

@[simp] theorem hasBreak_nil : hasBreak [] = false := rfl

@[simp] theorem hasBreak_cons : hasBreak (c :: r) = (isLineBreak c || hasBreak r) := rfl

@[simp] theorem hasBreak_append : hasBreak (r ++ t) = (hasBreak r || hasBreak t) :=
  List.any_append

theorem hasBreak_eq_false : hasBreak t = false ↔ ∀ c ∈ t, isLineBreak c = false := by
  simp [hasBreak]

/-- A character that breaks no line belongs to the line of what follows. -/
theorem splitLines_cons (hc : isLineBreak c = false) :
    splitLines (c :: r) = prepend c (splitLines r) := by
  rw [splitLines.eq_3, if_neg (by simp [hc])]
  rintro _ rfl
  cases hc

/-- A character that breaks a line ends it, unless it does so together with the next one. -/
theorem splitLines_cons_break (hc : isLineBreak c = true)
    (hpair : c = '\r' → r.head? ≠ some '\n') : splitLines (c :: r) = [] :: splitLines r := by
  rw [splitLines.eq_3, if_pos hc]
  rintro s rfl rfl
  exact hpair rfl rfl

@[simp] theorem splitLines_feed : splitLines ('\n' :: r) = [] :: splitLines r :=
  splitLines_cons_break (by decide) (by simp)

theorem exists_splitLines_cons (c : Char) (r : List Char) :
    ∃ l ls, splitLines (c :: r) = l :: ls := by
  by_cases hpair : ∃ s, c = '\r' ∧ r = '\n' :: s
  · obtain ⟨s, rfl, rfl⟩ := hpair
    exact ⟨[], splitLines s, by rw [splitLines]⟩
  rw [splitLines.eq_3 c r fun s hc hr => hpair ⟨s, hc, hr⟩]
  split
  · exact ⟨[], _, rfl⟩
  · cases splitLines r with
    | nil => exact ⟨[c], [], rfl⟩
    | cons l ls => exact ⟨c :: l, ls, rfl⟩

/-- A text that breaks no line is the line that it begins. -/
theorem splitLines_append (ht : hasBreak t = false) (rest : List Char) :
    splitLines (t ++ '\n' :: rest) = t :: splitLines rest := by
  induction t with
  | nil => exact splitLines_feed
  | cons c t ih =>
      obtain ⟨hc, ht⟩ := Bool.or_eq_false_iff.mp ht
      rw [List.cons_append, splitLines_cons hc, ih ht, prepend]

theorem exists_splitLines_append (t rest : List Char) :
    ∃ l ls, splitLines (t ++ '\n' :: rest) = l :: ls := by
  cases t with
  | nil => exact exists_splitLines_cons _ _
  | cons c t => exact exists_splitLines_cons _ _

theorem getLast?_ne_of_cons {d : Char} (h : (c :: r).getLast? ≠ some d) : r.getLast? ≠ some d := by
  cases r with
  | nil => simp
  | cons e r => simpa using h

/-- A line feed behind a text does not complete a carriage return in it. -/
theorem head?_append_feed_ne (hpair : ∀ s, c = '\r' → r = '\n' :: s → False)
    (ht : (c :: r).getLast? ≠ some '\r') (rest : List Char) :
    c = '\r' → (r ++ '\n' :: rest).head? ≠ some '\n' := by
  rintro rfl
  cases r with
  | nil => exact absurd rfl ht
  | cons d r => simpa using fun hd : d = '\n' => hpair r rfl (hd ▸ rfl)

/-- A line feed separates the lines before it from those behind it, unless it belongs to a carriage
return. -/
theorem splitLines_append_feed (ht : t.getLast? ≠ some '\r') (rest : List Char) :
    splitLines (t ++ '\n' :: rest) = splitLines (t ++ ['\n']) ++ splitLines rest := by
  fun_induction splitLines t with
  | case1 => simp [splitLines]
  | case2 r ih =>
      have hr := getLast?_ne_of_cons (getLast?_ne_of_cons ht)
      simp only [List.cons_append, splitLines, ih hr]
  | case3 c r hpair hc ih =>
      have hhead := head?_append_feed_ne hpair ht
      rw [List.cons_append, List.cons_append, splitLines_cons_break hc (hhead rest),
        splitLines_cons_break hc (hhead []), ih (getLast?_ne_of_cons ht), List.cons_append]
  | case4 c r hpair hc ih =>
      replace hc : isLineBreak c = false := by simpa using hc
      obtain ⟨l, ls, hls⟩ := exists_splitLines_append r []
      rw [List.cons_append, List.cons_append, splitLines_cons hc, splitLines_cons hc,
        ih (getLast?_ne_of_cons ht), hls]
      rfl

/-- A text that breaks a line makes more than one when a line feed ends it. -/
theorem one_lt_length_splitLines (ht : t.getLast? ≠ some '\r') (hbreak : hasBreak t = true) :
    1 < (splitLines (t ++ ['\n'])).length := by
  fun_induction splitLines t with
  | case1 => cases hbreak
  | case2 r ih =>
      obtain ⟨l, ls, hls⟩ := exists_splitLines_append r []
      simp [splitLines, hls]
  | case3 c r hpair hc ih =>
      obtain ⟨l, ls, hls⟩ := exists_splitLines_append r []
      rw [List.cons_append, splitLines_cons_break hc (head?_append_feed_ne hpair ht []), hls]
      simp
  | case4 c r hpair hc ih =>
      replace hc : isLineBreak c = false := by simpa using hc
      have hr : hasBreak r = true := by simpa [hc] using hbreak
      have hlength := ih (getLast?_ne_of_cons ht) hr
      obtain ⟨l, ls, hls⟩ := exists_splitLines_append r []
      rw [hls] at hlength
      rw [List.cons_append, splitLines_cons hc, hls]
      exact hlength

/-- Texts of which each ends with a line feed are the lines of their text if none breaks a line
itself. -/
theorem splitLines_flatMap {ts : List (List Char)} (hts : ∀ t ∈ ts, hasBreak t = false) :
    splitLines (ts.flatMap (· ++ ['\n'])) = ts := by
  induction ts with
  | nil => rfl
  | cons t ts ih =>
      obtain ⟨ht, hts⟩ := List.forall_mem_cons.mp hts
      rw [List.flatMap_cons, List.append_assoc, List.singleton_append, splitLines_append ht,
        ih hts]

/-- There are as many lines as texts exactly if no text breaks a line itself, and there are never
fewer. -/
theorem length_splitLines_flatMap {ts : List (List Char)}
    (hts : ∀ t ∈ ts, t.getLast? ≠ some '\r') :
    ts.length ≤ (splitLines (ts.flatMap (· ++ ['\n']))).length ∧
      ((splitLines (ts.flatMap (· ++ ['\n']))).length = ts.length ↔
        ∀ t ∈ ts, hasBreak t = false) := by
  induction ts with
  | nil => simp [splitLines]
  | cons t ts ih =>
      obtain ⟨ht, hts⟩ := List.forall_mem_cons.mp hts
      obtain ⟨hle, hiff⟩ := ih hts
      have hlength : (splitLines ((t :: ts).flatMap (· ++ ['\n']))).length =
          (splitLines (t ++ ['\n'])).length + (splitLines (ts.flatMap (· ++ ['\n']))).length := by
        rw [List.flatMap_cons, List.append_assoc, List.singleton_append,
          splitLines_append_feed ht, List.length_append]
      rw [hlength, List.forall_mem_cons, List.length_cons, ← hiff]
      cases hbreak : hasBreak t with
      | false =>
          rw [splitLines_append hbreak, splitLines, List.length_singleton]
          simp only [true_and]
          omega
      | true =>
          have hone := one_lt_length_splitLines ht hbreak
          simp only [Bool.true_eq_false, false_and, iff_false]
          omega

end Lines

section QuotedTexts

theorem isLineBreak_of_printable {c : Char} (hlow : 32 ≤ c.toNat) (hhigh : c.toNat ≤ 126) :
    isLineBreak c = false := by
  simp [isLineBreak]
  omega

theorem isLineBreak_hexDigit : ∀ n < 16, isLineBreak (hexDigit n) = false := by decide

theorem hasBreak_unitEscape (n : Nat) : hasBreak (unitEscape n) = false := by
  have hdigit : ∀ k, isLineBreak (hexDigit (k % 16)) = false := fun k =>
    isLineBreak_hexDigit _ (Nat.mod_lt k (by decide))
  simp only [unitEscape, hex4, hasBreak_cons, hasBreak_nil, hdigit]
  decide

/-- No character breaks a line between quotes. -/
theorem hasBreak_escapeChar (c : Char) : hasBreak (escapeChar c) = false := by
  unfold escapeChar
  split_ifs with hquote hback hfeed hreturn htab hbackspace hform hprintable hsmall
  · decide
  · decide
  · decide
  · decide
  · decide
  · decide
  · decide
  · simp [isLineBreak_of_printable hprintable.1 hprintable.2]
  · exact hasBreak_unitEscape _
  · simp [hasBreak_unitEscape]

@[simp] theorem hasBreak_quoteChars (cs : List Char) : hasBreak (quoteChars cs) = false := by
  have hescape : hasBreak (escape cs) = false := by
    rw [hasBreak_eq_false]
    intro c hc
    obtain ⟨d, -, hd⟩ := List.mem_flatMap.mp hc
    exact hasBreak_eq_false.mp (hasBreak_escapeChar d) c hd
  simp only [quoteChars, hasBreak_cons, hasBreak_append, hescape, hasBreak_nil]
  decide

end QuotedTexts

end Text

open Text

section Operands

theorem isLineBreak_of_isDigit {c : Char} (hc : c.isDigit = true) : isLineBreak c = false := by
  simp only [Char.isDigit, Bool.and_eq_true, decide_eq_true_eq] at hc
  exact isLineBreak_of_printable (le_trans (by decide) hc.1) (le_trans hc.2 (by decide))

theorem Numeral.isLineBreak_of_isNumeral {c : Char} (hc : IsNumeral c) : isLineBreak c = false := by
  rcases hc with hc | hc
  · exact isLineBreak_of_isDigit hc
  · simp only [List.mem_cons, List.not_mem_nil, or_false] at hc
    rcases hc with rfl | rfl | rfl | rfl <;> decide

namespace Number

theorem hasBreak_ofInt (n : Int) : hasBreak (Decimal.ofInt n) = false := by
  have hdigits : hasBreak (Decimal.digitsOf n.natAbs) = false :=
    hasBreak_eq_false.mpr fun c hc => isLineBreak_of_isDigit (Numeral.isDigit_digitsOf _ c hc)
  unfold Decimal.ofInt
  split
  · simp only [hasBreak_cons, hdigits]
    decide
  · exact hdigits

theorem hasBreak_text (d : Decimal) : hasBreak d.text = false := by
  obtain ⟨n, hn, -⟩ := Numeral.exists_numeral_text d
  rw [← hn, hasBreak_eq_false]
  exact fun c hc => Numeral.isLineBreak_of_isNumeral (Numeral.isNumeral_of_mem_signed
    (b := false) c hc)

/-- The text of a number is one line. -/
@[simp] theorem hasBreak_brief (x : Number) : hasBreak x.brief = false := by
  have hwritten : hasBreak x.written = false := by
    cases x with
    | nan m => rfl
    | posInf => decide
    | negInf => decide
    | negZero => decide
    | finite q =>
        rw [written]
        split_ifs
        · decide
        · simp only [hasBreak_cons, hasBreak_text]
          decide
        · exact hasBreak_text _
  unfold brief
  split
  · split
    · exact hasBreak_ofInt _
    · exact hwritten
  · exact hwritten

end Number

/-- The text of an operand is one line. -/
@[simp] theorem Operand.hasBreak_chars (v : Operand) : hasBreak v.chars = false := by
  have hlist : ∀ (first : Bool) (ss : List String), hasBreak (quotedList first ss) = false := by
    intro first ss
    induction ss generalizing first with
    | nil => rfl
    | cons s r ih =>
        rw [quotedList, hasBreak_append, hasBreak_append, hasBreak_quoteChars, ih]
        cases first <;> decide
  cases v with
  | number x => exact Number.hasBreak_brief x
  | text s => exact hasBreak_quoteChars _
  | flag b => cases b <;> decide
  | texts s =>
      simp only [chars, hasBreak_cons, hasBreak_append, hlist, hasBreak_nil]
      decide

end Operands

namespace Rule

section Parts

@[simp] theorem hasBreak_name (o : Operator) : hasBreak o.name.toList = false := by
  cases o <;> decide

@[simp] theorem hasBreak_symbol (o : Operator) : hasBreak o.symbol.toList = false := by
  cases o <;> decide

@[simp] theorem hasBreak_quotedField (key value : String) :
    hasBreak (quotedField key value) = hasBreak key.toList := by
  simp [quotedField, isLineBreak]

@[simp] theorem hasBreak_commaList (ts : List (List Char)) :
    hasBreak (commaList ts) = ts.any hasBreak := by
  fun_induction commaList ts with
  | case1 => rfl
  | case2 t => simp
  | case3 t r hne ih => simp [ih, isLineBreak]

/-- An annotation is one line. -/
theorem hasBreak_annotation (h : Head) : hasBreak ( annotation h) = false := by
  have hfields : (annotationFields h).any hasBreak = false := by
    -- the variable of a logical rule, the confidence and the group may each be absent
    unfold annotationFields
    split <;> split <;> split <;> simp [isLineBreak]
  simp only [ annotation, hasBreak_cons, hasBreak_append, hasBreak_commaList, hfields,
    hasBreak_nil]
  decide

@[simp] theorem hasBreak_suffix (annotate : Bool) (h : Head) :
    hasBreak (suffix annotate h) = false := by
  cases annotate with
  | false => rfl
  | true =>
      simp only [suffix, if_true, hasBreak_cons, hasBreak_annotation]
      decide

theorem hasBreak_doubleTicks (cs : List Char) : hasBreak (doubleTicks cs) = hasBreak cs := by
  induction cs with
  | nil => rfl
  | cons c r ih =>
      rw [doubleTicks]
      split
      next hc => simp [ih, hc]
      next => simp [ih]

/-- A variable breaks a line in a rule exactly if its name does: back quotes escape nothing but
themselves. -/
@[simp] theorem hasBreak_variableText (cs : List Char) :
    hasBreak (variableText cs) = hasBreak cs := by
  unfold variableText
  split
  · rfl
  · simp [hasBreak_doubleTicks, isLineBreak]

theorem hasBreak_comparisonText (h : Head) (v : Operand) :
    hasBreak (comparisonText h v) = hasBreak h.subject.toList := by
  simp [comparisonText, isLineBreak]

end Parts

section Printed

variable {annotate : Bool}

/-- Whether the variable of a comparison in a rule breaks lines. -/
def BreaksLine (r : Rule) : Prop :=
  ∃ t ∈ r.walk, t.head.operator.isLogical = false ∧ hasBreak t.head.subject.toList = true

theorem breaksLine_comparison {h : Head} (ho : h.operator.isLogical = false) :
    (node h []).BreaksLine ↔ hasBreak h.subject.toList = true := by
  simp [BreaksLine, walk, walkAll, ho]

theorem breaksLine_logical {h : Head} {cs : List Rule} (ho : h.operator.isLogical = true) :
    (node h cs).BreaksLine ↔ ∃ c ∈ cs, c.BreaksLine := by
  simp only [BreaksLine, walk, List.mem_cons, exists_eq_or_imp, head_node, ho, Bool.true_eq_false,
    false_and, false_or, mem_walkAll]
  grind

/-- What holds of every rule with its text holds of the rules with their texts, one by one. -/
theorem forall₂_of_printAll {P : Rule → List Char → Prop} {rs : List Rule}
    {ts : List (List Char)} (hts : printAll annotate rs = some ts)
    (h : ∀ r ∈ rs, ∀ t, printChars annotate r = some t → P r t) : List.Forall₂ P rs ts := by
  induction rs generalizing ts with
  | nil =>
      obtain rfl : [] = ts := by simpa [printAll] using hts
      exact .nil
  | cons r rs ih =>
      obtain ⟨hr, hrs⟩ := List.forall_mem_cons.mp h
      rw [printAll] at hts
      split at hts
      next t us ht hus =>
        obtain rfl := Option.some.inj hts
        exact .cons (hr t ht) (ih hus hrs)
      next => cases hts

/-- The text of a rule breaks a line exactly if the variable of a comparison in the rule does. -/
theorem hasBreak_printChars (r : Rule) {t : List Char}
    (hs : ∀ s ∈ r.walk, s.head.HasShape s.children.length) (ht : printChars annotate r = some t) :
    r.BreaksLine ↔ hasBreak t = true := by
  induction r using Rule.induction generalizing t with
  | node h cs ih =>
      rw [printChars] at ht
      cases ho : h.operator.isLogical with
      | true =>
          rw [if_pos ho] at ht
          obtain ⟨ts, hts, rfl⟩ := Option.map_eq_some_iff.mp ht
          have hbelow : ∀ c ∈ cs, ∀ s ∈ c.walk, s.head.HasShape s.children.length := by
            intro c hc s hmem
            refine hs s ?_
            rw [walk]
            exact List.mem_cons_of_mem _ (mem_walkAll.mpr ⟨c, hc, hmem⟩)
          have hpairs : List.Forall₂ (fun c u => c.BreaksLine ↔ hasBreak u = true) cs ts :=
            forall₂_of_printAll hts fun c hc u hu => ih c hc (hbelow c hc) hu
          rw [breaksLine_logical ho, Attempt.exists_mem_iff hpairs, ← List.any_eq_true]
          simp [isLineBreak]
      | false =>
          rw [ho, if_neg Bool.false_ne_true] at ht
          obtain ⟨v, -, rfl⟩ := Option.map_eq_some_iff.mp ht
          obtain ⟨hcs, -⟩ := (hs (node h cs) (mem_walk_self _)).comparison ho
          obtain rfl : cs = [] := by simpa using hcs
          rw [breaksLine_comparison ho, hasBreak_append, hasBreak_comparisonText, hasBreak_suffix,
            Bool.or_false]

/-- A text that ends with a stretch without line breaks does not end with a carriage return. -/
theorem getLast?_append_ne {c : Char} {r : List Char} (h : hasBreak (c :: r) = false)
    (before : List Char) : (before ++ c :: r).getLast? ≠ some '\r' := by
  intro hlast
  rw [List.getLast?_append_of_ne_nil _ (by simp)] at hlast
  have hbreak := hasBreak_eq_false.mp h _ (List.mem_of_getLast? hlast)
  cases hbreak

/-- The text of a rule ends with an operand, a parenthesis or a brace. -/
theorem getLast?_printChars_ne {r : Rule} {t : List Char} (ht : printChars annotate r = some t) :
    t.getLast? ≠ some '\r' := by
  obtain ⟨h, cs⟩ := r
  rw [printChars] at ht
  split at ht
  · obtain ⟨ts, -, rfl⟩ := Option.map_eq_some_iff.mp ht
    have hend := getLast?_append_ne (c := ')') (r := suffix annotate h) (by simp [isLineBreak])
      (h.operator.name.toList ++ '(' :: commaList ts)
    simpa using hend
  · obtain ⟨v, -, rfl⟩ := Option.map_eq_some_iff.mp ht
    have hend := getLast?_append_ne (c := ' ')
      (r := h.operator.symbol.toList ++ ' ' :: (v.chars ++ suffix annotate h))
      (by simp [isLineBreak]) (variableText h.subject.toList)
    simpa [comparisonText] using hend

end Printed

end Rule

namespace CommandLine

variable {cfg : Settings} {payload : Json} {s : RuleSet} {annotate : Bool}

/-- The texts of rules are printed one after the other, each with a line feed behind it. -/
theorem exists_ruleLines {rs : List Rule} {ts : List (List Char)}
    (hts : Rule.printAll annotate rs = some ts) : ∃ text, ruleLines annotate rs = .ok text ∧
      text.toList = ts.flatMap (· ++ ['\n']) := by
  have hlines : rs.mapM (ruleLine annotate) = .ok (ts.map fun t => String.ofList t ++ "\n") := by
    rw [Attempt.mapM_eq_ok, List.forall₂_map_right_iff]
    refine Rule.forall₂_of_printAll hts fun r _ t ht => ?_
    rw [ruleLine, Rule.print, ht, Option.map_some]
  refine ⟨_, by rw [ruleLines, hlines, Attempt.map_ok], ?_⟩
  simp [String.toList_join, List.flatMap_map]

theorem hasShape_of_parse (hs : RuleSet.parse cfg payload = .ok s) :
    ∀ t ∈ Rule.walkAll s.rules, t.head.HasShape t.children.length :=
  fun t ht => ((RuleSet.of_parse hs).2.sound t ht).hasShape

theorem hasShape_of_mem (hs : RuleSet.parse cfg payload = .ok s) {r : Rule}
    (hr : r ∈ Rule.walkAll s.rules) : ∀ t ∈ r.walk, t.head.HasShape t.children.length :=
  fun t ht => hasShape_of_parse hs t ((Rule.walkAll_sublist_of_mem s.rules hr).subset ht)

/-- Every rule of a payload has a text, which breaks a line exactly if the variable of a comparison
in the rule does. -/
theorem exists_print_breaks (hs : RuleSet.parse cfg payload = .ok s) (annotate : Bool) {r : Rule}
    (hr : r ∈ Rule.walkAll s.rules) : ∃ t, r.print annotate = some t ∧
      (r.BreaksLine ↔ Text.hasBreak t.toList = true) := by
  have hshape := hasShape_of_mem hs hr
  obtain ⟨t, ht⟩ := Rule.exists_printChars annotate r hshape
  refine ⟨String.ofList t, by rw [Rule.print, ht, Option.map_some], ?_⟩
  rw [String.toList_ofList]
  exact Rule.hasBreak_printChars r hshape ht

/-- The rules of a payload are printed one after the other, each with a line feed behind it, and
none of their texts ends with a carriage return. -/
theorem exists_printed (hs : RuleSet.parse cfg payload = .ok s) (annotate : Bool) {p : Place}
    {path : String} (hread : p.read path = .ok payload) : ∃ text ts,
      (Request.print path annotate).outcome cfg p = .printed text ∧
      Rule.printAll annotate s.rules = some ts ∧ text.toList = ts.flatMap (· ++ ['\n']) ∧
      ∀ t ∈ ts, t.getLast? ≠ some '\r' := by
  obtain ⟨ts, hts⟩ := Rule.exists_printAll annotate s.rules (hasShape_of_parse hs)
  obtain ⟨text, htext, hchars⟩ := exists_ruleLines hts
  refine ⟨text, ts, ?_, hts, hchars, fun t ht => ?_⟩
  · rw [Request.outcome, Request.answer, hread, Attempt.ok_bind, ruleSet, hs]
    simp only [Except.mapError, Attempt.ok_bind, htext]
    rfl
  · have hends : List.Forall₂ (fun _ t => t.getLast? ≠ some '\r') s.rules ts :=
      Rule.forall₂_of_printAll hts fun r _ t ht => Rule.getLast?_printChars_ne ht
    obtain ⟨r, -, hr⟩ := Attempt.exists_left hends ht
    exact hr

section Outcome

/-- Every rule of a payload has a text, which breaks a line exactly if the variable of a comparison
in the rule does.  Printing a payload never gives fewer lines than it has rules at the top; it gives
as many exactly if no variable of a comparison breaks a line, and then the lines are the texts of
the rules. -/
theorem print_lines_iff (hs : RuleSet.parse cfg payload = .ok s) (annotate : Bool) :
    (∀ r ∈ Rule.walkAll s.rules, ∃ t, r.print annotate = some t ∧
      (r.BreaksLine ↔ Text.hasBreak t.toList = true)) ∧
    ∀ (p : Place) (path : String), p.read path = .ok payload → ∃ text,
      (Request.print path annotate).outcome cfg p = .printed text ∧
      s.rules.length ≤ (Text.splitLines text.toList).length ∧
      ((Text.splitLines text.toList).length = s.rules.length ↔ ∀ r ∈ s.rules, ¬ r.BreaksLine) ∧
      ((∀ r ∈ s.rules, ¬ r.BreaksLine) → List.Forall₂
        (fun r line => r.print annotate = some (String.ofList line)) s.rules
        (Text.splitLines text.toList)) := by
  refine ⟨fun r hr => exists_print_breaks hs annotate hr, fun p path hread => ?_⟩
  obtain ⟨text, ts, houtcome, hts, hchars, hends⟩ := exists_printed hs annotate hread
  have hmem : ∀ r ∈ s.rules, r ∈ Rule.walkAll s.rules := fun r hr =>
    Rule.mem_walkAll.mpr ⟨r, hr, Rule.mem_walk_self r⟩
  have hpairs : List.Forall₂ (fun r t => r.BreaksLine ↔ Text.hasBreak t = true) s.rules ts :=
    Rule.forall₂_of_printAll hts fun r hr t ht =>
      Rule.hasBreak_printChars r (hasShape_of_mem hs (hmem r hr)) ht
  have hbreaks : (∀ t ∈ ts, Text.hasBreak t = false) ↔ ∀ r ∈ s.rules, ¬ r.BreaksLine := by
    have hsome := Attempt.exists_mem_iff hpairs
    simpa using hsome.symm.not
  obtain ⟨hle, hlength⟩ := Text.length_splitLines_flatMap hends
  rw [← hchars, ← hpairs.length_eq] at hle hlength
  refine ⟨text, houtcome, hle, hlength.trans hbreaks, fun hall => ?_⟩
  rw [hchars, Text.splitLines_flatMap (hbreaks.mpr hall)]
  refine Rule.forall₂_of_printAll hts fun r _ t ht => ?_
  rw [Rule.print, ht, Option.map_some]

/-- A comparison of a variable that has a line feed inside its name. -/
def tornRule : Rule :=
  .node { id := "r", subject := "a\nb", operator := .eq, value := some (.flag true), clause := "c",
          confidence := some Number.one } []

def tornPayload : Json :=
  .obj [("rules", .arr [.obj [("rule_id", .str "r"), ("variable", .str "a\nb"),
    ("operator", .str "EQ"), ("value", .bool true), ("clause_reference", .str "c"),
    ("confidence", .float Number.one)]])]

/-- A place where every file holds the payload. -/
def tornPlace : Place where
  process := []
  file? _ := some tornPayload.compact

theorem parse_tornPayload : RuleSet.parse .standard tornPayload = .ok { rules := [tornRule] } := by
  have hread : RuleSet.ofPayload tornPayload = .ok { rules := [tornRule] } := rfl
  have hfault : RuleSet.fault? .standard { rules := [tornRule] } = none := by decide +kernel
  simp only [RuleSet.parse, hread, RuleSet.validate, hfault]

theorem read_tornPlace (path : String) : tornPlace.read path = .ok tornPayload := by
  have hportable : tornPayload.IsPortable := by
    refine .obj (by simp) (List.forall_mem_singleton.mpr
      (.arr (List.forall_mem_singleton.mpr (.obj (by simp) ?_))))
    simp only [List.forall_mem_cons]
    exact ⟨.str _, .str _, .str _, .bool _, .str _, .float rfl (by decide +kernel),
      List.forall_mem_nil _⟩
  have hshort : tornPayload.HasShortIntegers := by
    simp [Json.HasShortIntegers, tornPayload, Json.integers, Json.integersOfFields,
      Json.integersOfItems]
  have hends : Text.unifyLineEnds tornPayload.compact = tornPayload.compact := by
    rw [Json.compact, Text.unifyLineEnds, String.toList_ofList,
      Text.unifyLineEnds_eq_self _ (by decide +kernel)]
  have hopen : Json.placeBelow? false Json.levelLimit 0 (Json.compactChars tornPayload) = none := by
    decide +kernel
  have hlevels : Json.isTooDeep Json.levelLimit tornPayload.compact = false := by
    rw [Json.isTooDeep, Json.compact, String.toList_ofList, hopen]
  rw [Place.read, tornPlace, Option.getD_some, hends, if_neg (by simp [hlevels]),
    Json.read_compact hportable hshort]
  rfl

theorem breaksLine_tornRule : tornRule.BreaksLine :=
  (Rule.breaksLine_comparison rfl).mpr (by decide)

/-- The torn rule is printed on more than one line. -/
theorem print_lines_iff_torn : RuleSet.parse .standard tornPayload = .ok { rules := [tornRule] } ∧
    ∃ text, (Request.print "ir.json" true).outcome .standard tornPlace = .printed text ∧
      1 < (Text.splitLines text.toList).length := by
  obtain ⟨-, hprint⟩ := print_lines_iff parse_tornPayload true
  obtain ⟨text, houtcome, hle, hlength, -⟩ := hprint tornPlace "ir.json" (read_tornPlace _)
  refine ⟨parse_tornPayload, text, houtcome, lt_of_le_of_ne hle fun heq => ?_⟩
  exact hlength.mp heq.symm tornRule (by simp) breaksLine_tornRule

/-- Rules of payloads are not always printed without line breaks, with annotations or without them,
and printing a payload does not always give one line for each rule. -/
theorem not_forall_one_line :
    (¬ ∀ (cfg : Settings) (payload : Json) (s : RuleSet) (annotate : Bool),
      RuleSet.parse cfg payload = .ok s → ∀ r ∈ Rule.walkAll s.rules,
        ∀ t, r.print annotate = some t → Text.hasBreak t.toList = false) ∧
    ¬ ∀ (cfg : Settings) (payload : Json) (s : RuleSet) (annotate : Bool) (p : Place)
      (path text : String), RuleSet.parse cfg payload = .ok s → p.read path = .ok payload →
        (Request.print path annotate).outcome cfg p = .printed text →
        (Text.splitLines text.toList).length = s.rules.length := by
  have hmem : tornRule ∈ Rule.walkAll [tornRule] :=
    Rule.mem_walkAll.mpr ⟨tornRule, by simp, Rule.mem_walk_self _⟩
  constructor
  · intro h
    obtain ⟨t, ht, hbreak⟩ := exists_print_breaks parse_tornPayload true hmem
    have hno := h .standard tornPayload _ true parse_tornPayload tornRule hmem t ht
    rw [hbreak.mp breaksLine_tornRule] at hno
    cases hno
  · intro h
    obtain ⟨text, ts, houtcome, hts, hchars, hends⟩ :=
      exists_printed parse_tornPayload true (read_tornPlace "ir.json")
    have hlength := h .standard tornPayload _ true tornPlace "ir.json" text parse_tornPayload
      (read_tornPlace _) houtcome
    have hpairs : List.Forall₂ (fun _ t => Text.hasBreak t = true) [tornRule] ts :=
      Rule.forall₂_of_printAll hts fun r hr t ht => by
        obtain rfl := List.mem_singleton.mp hr
        exact (Rule.hasBreak_printChars _ (hasShape_of_mem parse_tornPayload hmem) ht).mp
          breaksLine_tornRule
    rw [hchars, hpairs.length_eq, (Text.length_splitLines_flatMap hends).2] at hlength
    obtain ⟨t, ht, hbreak⟩ := Attempt.exists_right hpairs (List.mem_singleton_self tornRule)
    rw [hlength t ht] at hbreak
    cases hbreak

end Outcome

end CommandLine
end Eligibility
