import Eligibility.Proofs.ReadTexts
/-!
# Rules of texts are printed and read back

**Numbers.**  The numbers of a rule that is read are doubles.  A finite one is printed as a numeral
and read back.  An infinite one, read from a numeral that is too large, is printed as a word, or as
a minus sign before a word, and neither is a number.  So rules whose numbers are all finite are read
only from the texts of such rules.

**Zeros.**  A zero with a minus sign is printed without it, and nothing else is lost by printing.

**Results.**
* `print_relabel_plain`: the text of a rule does not show the minus signs of zeros.
* `isFinite_of_isStated`: the tokens of the text of a rule state no numbers but finite ones.
* `reprint_spec`: a rule of a text comes back from its own text exactly if its numbers are finite.
-/

namespace Eligibility

namespace Number

theorem brief_plain (x : Number) : x.plain.brief = x.brief := by
  cases x with
  | negZero => decide
  | _ => rfl

theorem isFinite_plain (x : Number) : x.plain.isFinite = x.isFinite := by
  cases x <;> rfl

theorem isFinite_of_same {x y : Number} (h : x.same y = true) (hy : y.isFinite = true) :
    x.isFinite = true := by
  cases x with
  | negZero => rfl
  | finite q => rfl
  | nan m => cases h
  | negInf => cases y <;> simp_all [same, isFinite, value?]
  | posInf => cases y <;> simp_all [same, isFinite, value?]

end Number

theorem Operand.chars_plain (v : Operand) : v.plain.chars = v.chars := by
  cases v with
  | number x => exact x.brief_plain
  | _ => rfl

namespace Head

/-- Whether all numbers of a head are finite. -/
def IsFinite (h : Head) : Prop := ∀ x ∈ h.numbers, x.isFinite = true

theorem isFinite_of_same {h k : Head} (hs : h.same k = true) (hk : k.IsFinite) : h.IsFinite := by
  simp only [same, Bool.and_eq_true] at hs
  obtain ⟨⟨⟨⟨-, hvalue⟩, -⟩, hconfidence⟩, -⟩ := hs
  intro x hx
  rcases mem_numbers.mp hx with hx | hx
  · rw [hx] at hconfidence
    cases hy : k.confidence with
    | none =>
        rw [hy] at hconfidence
        cases hconfidence
    | some y =>
        rw [hy] at hconfidence
        exact Number.isFinite_of_same hconfidence (hk y (mem_numbers_confidence hy))
  · rw [hx] at hvalue
    cases hv : k.value with
    | none =>
        rw [hv] at hvalue
        cases hvalue
    | some v =>
        rw [hv] at hvalue
        cases v with
        | number y => exact Number.isFinite_of_same hvalue (hk y (mem_numbers_value hv))
        | text s => cases hvalue
        | flag b => cases hvalue
        | texts s => cases hvalue

theorem annotation_plain (h : Head) : Rule.annotation h.plain = Rule.annotation h := by
  have hfields : Rule.annotationFields h.plain = Rule.annotationFields h := by
    unfold Rule.annotationFields plain
    cases h.confidence <;> simp [Number.brief_plain]
  rw [Rule.annotation, Rule.annotation, hfields]

end Head

namespace Rule

/-- Whether all numbers of a rule are finite. -/
def IsFinite (r : Rule) : Prop := ∀ h ∈ r.heads, h.IsFinite

section Plain

mutual

/-- The text of a rule does not show the minus signs of zeros. -/
theorem print_relabel_plain (annotate : Bool) : ∀ (r : Rule) (id : Json),
    printChars annotate (relabel (fun _ h => h.plain) id r) = printChars annotate r
  | node h cs, id => by
      have hsuffix : suffix annotate h.plain = suffix annotate h := by
        rw [suffix, suffix, h.annotation_plain]
      have hoperator : h.plain.operator = h.operator := rfl
      rw [relabel, printChars, printChars, printAll_relabel_plain annotate cs id 0, hsuffix,
        hoperator]
      refine congrArg _ ?_
      have hvalue : h.plain.value = h.value.map Operand.plain := rfl
      rw [hvalue, Option.map_map]
      refine congrFun (congrArg Option.map (funext fun v => ?_)) _
      simp [comparisonText, Operand.chars_plain, Head.plain]

theorem printAll_relabel_plain (annotate : Bool) : ∀ (rs : List Rule) (id : Json) (place : Nat),
    printAll annotate (relabelAll (fun _ h => h.plain) id place rs) = printAll annotate rs
  | [], _, _ => rfl
  | r :: rs, id, place => by
      rw [relabelAll, printAll, printAll, print_relabel_plain annotate r,
        printAll_relabel_plain annotate rs]

end

mutual

theorem isFinite_of_same : ∀ {r t : Rule}, same r t = true → t.IsFinite → r.IsFinite
  | node h cs, node k ds, hs, ht => by
      rw [same, Bool.and_eq_true] at hs
      have hbelow := isFinite_of_sameAll hs.2 fun g hg => ht g (by simp [heads, hg])
      intro g hg
      rcases List.mem_cons.mp hg with rfl | hg
      · exact Head.isFinite_of_same hs.1 (ht k (by simp [heads]))
      · exact hbelow g hg

theorem isFinite_of_sameAll : ∀ {rs ts : List Rule}, sameAll rs ts = true →
    (∀ h ∈ headsOf ts, h.IsFinite) → ∀ h ∈ headsOf rs, h.IsFinite
  | [], _, _, _, h, hh => by cases hh
  | r :: rs, [], hs, _, h, hh => by cases hs
  | r :: rs, t :: ts, hs, hts, h, hh => by
      rw [sameAll, Bool.and_eq_true] at hs
      rw [headsOf, List.mem_append] at hh
      rcases hh with hh | hh
      · exact isFinite_of_same hs.1 (fun g hg => hts g (by simp [headsOf, hg])) h hh
      · exact isFinite_of_sameAll hs.2 (fun g hg => hts g (by simp [headsOf, hg])) h hh

end

end Plain

section Stated

/-- Whether the numbers among lexemes are the finite ones of a head. -/
def StatesFinite (numbers : List Number) (ls : List Lexeme) : Prop :=
  ∀ l ∈ ls, l.1 = .number → ∃ x ∈ numbers, x.isFinite = true ∧ l = numberLexeme x

variable {xs ys : List Number} {ls ms : List Lexeme}

theorem StatesFinite.mono (h : StatesFinite xs ls) (hsub : xs ⊆ ys) : StatesFinite ys ls :=
  fun l hl hk => (h l hl hk).imp fun _ hx => ⟨hsub hx.1, hx.2⟩

theorem StatesFinite.append (h : StatesFinite xs ls) (h' : StatesFinite xs ms) :
    StatesFinite xs (ls ++ ms) := List.forall_mem_append.mpr ⟨h, h'⟩

theorem statesFinite_nil : StatesFinite xs [] := List.forall_mem_nil _

theorem StatesFinite.cons {l : Lexeme} (hl : l.1 ≠ .number) (h : StatesFinite xs ls) :
    StatesFinite xs (l :: ls) := List.forall_mem_cons.mpr ⟨fun hk => absurd hk hl, h⟩

theorem statesFinite_numberLexeme {x : Number} (hx : x ∈ xs) :
    StatesFinite xs [numberLexeme x] := by
  intro l hl hk
  obtain rfl := List.mem_singleton.mp hl
  refine ⟨x, hx, ?_, rfl⟩
  by_contra hfinite
  simp [numberLexeme, hfinite] at hk

theorem statesFinite_commaLexemes {lss : List (List Lexeme)} (h : ∀ ls ∈ lss, StatesFinite xs ls) :
    StatesFinite xs (commaLexemes lss) := by
  induction lss with
  | nil => exact statesFinite_nil
  | cons ls lss ih =>
      have hls := h ls (by simp)
      have hrest := ih fun ms hm => h ms (List.mem_cons_of_mem _ hm)
      cases lss with
      | nil => exact hls
      | cons ms lss => exact hls.append (hrest.cons (by decide))

theorem statesFinite_suffix (annotate : Bool) (h : Head) :
    StatesFinite h.numbers (suffixLexemes annotate h) := by
  cases annotate with
  | false => exact statesFinite_nil
  | true =>
      have hentry : ∀ e ∈ entries h, StatesFinite h.numbers e.lexemes := by
        intro e he
        have hvalue : StatesFinite h.numbers [e.value] := by
          rcases of_mem_entries he with ⟨k, s, rfl, -⟩ | ⟨x, rfl, hx⟩
          · exact statesFinite_nil.cons (by simp [Entry.value, quoted])
          · exact statesFinite_numberLexeme (Head.mem_numbers_confidence hx)
        exact (hvalue.cons (by decide)).cons (by simp)
      have hentries : StatesFinite h.numbers (commaLexemes ((entries h).map Entry.lexemes)) :=
        statesFinite_commaLexemes (List.forall_mem_map.mpr hentry)
      exact (hentries.append (statesFinite_nil.cons (by decide))).cons (by decide)

theorem statesFinite_comparison {h : Head} {v : Operand} (hv : h.value = some v) :
    StatesFinite h.numbers (comparisonLexemes h v) := by
  have hsign : StatesFinite h.numbers (signLexemes h.operator) := by
    intro l hl hk
    have hne : ∀ o : Operator, ∀ l ∈ signLexemes o, l.1 ≠ .number := by
      intro o
      cases o <;> simp [signLexemes]
    exact absurd hk (hne _ l hl)
  have hoperand : StatesFinite h.numbers (operandLexemes v) := by
    cases v with
    | number x => exact statesFinite_numberLexeme (Head.mem_numbers_value hv)
    | text s => exact statesFinite_nil.cons (by simp [quoted])
    | flag b => exact statesFinite_nil.cons (by simp)
    | texts s =>
        have hmembers : StatesFinite h.numbers (commaLexemes (s.members.map fun s => [quoted s])) :=
          statesFinite_commaLexemes
            (by simpa using fun s _ => statesFinite_nil.cons (by simp [quoted]))
        exact (hmembers.append (statesFinite_nil.cons (by decide))).cons (by decide)
  refine (hsign.append hoperand).cons ?_
  simp only [variableLexeme]
  split <;> decide

mutual

/-- The numbers among the lexemes of a rule are finite numbers of its heads. -/
theorem statesFinite_lexemes (annotate : Bool) : ∀ r : Rule,
    StatesFinite (r.heads.flatMap Head.numbers) (lexemes annotate r)
  | node h cs => by
      have hsub : h.numbers ⊆ (node h cs).heads.flatMap Head.numbers := by
        simp [heads]
      have hbelow : ∀ ls ∈ lexemesAll annotate cs,
          StatesFinite ((node h cs).heads.flatMap Head.numbers) ls := fun ls hls =>
        (statesFinite_lexemesAll annotate cs ls hls).mono (by simp [heads])
      rw [lexemes]
      refine StatesFinite.append ?_ ((statesFinite_suffix annotate h).mono hsub)
      split
      · exact (((statesFinite_commaLexemes hbelow).append (statesFinite_nil.cons (by decide))).cons
          (by decide)).cons (by simp)
      · cases hv : h.value with
        | none => exact statesFinite_nil
        | some v => exact (statesFinite_comparison hv).mono hsub

theorem statesFinite_lexemesAll (annotate : Bool) : ∀ rs : List Rule, ∀ ls ∈ lexemesAll annotate rs,
    StatesFinite ((headsOf rs).flatMap Head.numbers) ls
  | [], ls, hls => by cases hls
  | r :: rs, ls, hls => by
      rw [lexemesAll] at hls
      rcases List.mem_cons.mp hls with rfl | hls
      · exact (statesFinite_lexemes annotate r).mono (by simp [headsOf])
      · exact (statesFinite_lexemesAll annotate rs ls hls).mono (by simp [headsOf])

end

theorem hasNumeral_of_isDouble {x : Number} (hx : x.IsDouble) : HasNumeral true x := by
  cases hfinite : x.isFinite with
  | true => exact IsWritable.hasNumeral ⟨hfinite, hx⟩
  | false => exact .inr ⟨rfl, hfinite⟩

/-- The tokens of the text of a rule state no numbers but finite ones. -/
theorem isFinite_of_isStated {annotate : Bool} {r : Rule} {ts : List Token} {x : Number}
    (hr : ∀ h ∈ r.heads, ∀ x ∈ h.numbers, x.IsDouble)
    (hts : ts.map Token.lexeme = lexemes annotate r) (hx : Parser.IsStated ts x) :
    x.isFinite = true := by
  obtain ⟨t, ht, hkind, rfl⟩ := hx
  have hmem : t.lexeme ∈ lexemes annotate r := hts ▸ List.mem_map_of_mem ht
  obtain ⟨y, hy, hfinite, hlexeme⟩ := statesFinite_lexemes annotate r _ hmem hkind
  obtain ⟨h, hh, hy⟩ := List.mem_flatMap.mp hy
  rw [(Parser.numberOf_of_lexeme ⟨hfinite, hr h hh y hy⟩ hlexeme).2, Number.isFinite_plain, hfinite]

end Stated

section Reprinting

/-- Whether the confidence that is assumed is a finite double. -/
def Defaults.IsFinite (d : Defaults) : Prop :=
  ∃ x, Schema.number d.confidence = .ok x ∧ x.isFinite = true ∧ x.IsDouble

theorem Parser.isDouble_numberOf (t : Token) : (Parser.numberOf t).IsDouble := by
  unfold Parser.numberOf
  cases h : Number.read? (Text.asciiDigits t.text) with
  | none => trivial
  | some x => exact Number.isDouble_read? h

namespace Parser

variable {d : Defaults} {ts : List Token} {r : Rule}

theorem IsRuleFrom.confidence_eq {y : Number} (hr : IsRuleFrom d ts r)
    (hd : Schema.number d.confidence = .ok y) :
    ∃ x, r.head.confidence = some x ∧ (IsStated ts x ∨ x = y) := by
  rcases hr.confidence with ⟨x, hx, hstated⟩ | h
  · exact ⟨x, hx, .inl hstated⟩
  · have hnullable : Schema.nullable Schema.number d.confidence = .ok (some y) := by
      unfold Schema.nullable
      split
      · next hnull =>
        rw [hnull] at hd
        cases hd
      · rw [hd]
        rfl
    exact ⟨y, Schema.Checked.ok.inj (h.symm.trans hnullable), .inr rfl⟩

/-- The numbers of a rule that is read are those of tokens and the one that is assumed. -/
theorem IsRuleFrom.of_numbers {P : Number → Prop} {y : Number} (hr : IsRuleFrom d ts r)
    (hd : Schema.number d.confidence = .ok y) (hts : ∀ x, IsStated ts x → P x) (hy : P y) :
    ∀ x ∈ r.head.numbers, P x := by
  intro x hx
  rcases Head.mem_numbers.mp hx with hx | hx
  · obtain ⟨z, hz, hstated⟩ := hr.confidence_eq hd
    obtain rfl : z = x := Option.some.inj (hz.symm.trans hx)
    exact hstated.elim (hts z) fun h => h ▸ hy
  · exact hts x (hr.value x hx)

end Parser

/-- The text of a rule that is read from a text is read as the same rule when its numbers are
finite, whatever is assumed for rules without an annotation, and printed again it stays as it is.
It is read as the same rule only then. -/
theorem reprint_spec {levels : Nat} {d : Defaults} {text : String} {r : Rule} (hd : d.IsFinite)
    (hr : parseWithin levels d text = .ok r) :
    ∃ printed, r.print true = some printed ∧
      (r.IsFinite → ∀ e, ∃ t, parseWithin levels e printed = .ok t ∧ same r t = true ∧
        t.print true = some printed) ∧
      ∀ e t, e.IsFinite → parseWithin levels e printed = .ok t → same r t = true → r.IsFinite := by
  obtain ⟨y, hy, -, hdouble⟩ := hd
  obtain ⟨ts, -, hrules, hdepth⟩ := of_parseWithin hr
  obtain ⟨cs, hcs⟩ := exists_printChars true r fun t ht => (hrules t ht).shape
  have hstated : ∀ x, Parser.IsStated ts x → x.IsDouble := by
    rintro x ⟨u, -, -, rfl⟩
    exact Parser.isDouble_numberOf u
  have hdoubles : ∀ t ∈ r.walk, ∀ x ∈ t.head.numbers, x.IsDouble := fun t ht =>
    (hrules t ht).of_numbers hy hstated hdouble
  refine ⟨String.ofList cs, by simp [print, hcs], fun hr e => ?_, fun e t he ht hsame => ?_⟩
  · have hprintable : ∀ t ∈ r.walk, t.IsPrintable := by
      intro t ht
      have hnumbers : t.head.IsFinite := hr t.head (heads_eq_map_walk r ▸ List.mem_map_of_mem ht)
      obtain ⟨x, hx, -⟩ := (hrules t ht).confidence_eq hy
      exact ⟨(hrules t ht).shape, (hrules t ht).trimmed, by simp [hx],
        fun x hx => ⟨hnumbers x hx, hdoubles t ht x hx⟩⟩
    obtain ⟨hread, hsame⟩ := parseWithin_of_print e hprintable hdepth hcs
    exact ⟨_, hread, hsame, by rw [print, print_relabel_plain, hcs, Option.map_some]⟩
  · -- the numbers of what is read are stated by the text of the rule, or assumed
    obtain ⟨z, hz, hzfinite, -⟩ := he
    obtain ⟨us, hus, htrules, -⟩ := of_parseWithin ht
    have hheads : ∀ h ∈ r.heads, ∀ x ∈ h.numbers, x.IsDouble := by
      simpa [heads_eq_map_walk] using hdoubles
    have hnumerals : ∀ h ∈ r.heads, ∀ x ∈ h.numbers, HasNumeral true x := fun h hh x hx =>
      hasNumeral_of_isDouble (hheads h hh x hx)
    have hlexemes := lexemes_of_split hnumerals hcs (by simpa using hus)
    refine isFinite_of_same hsame ?_
    have hfinite : ∀ s ∈ t.walk, s.head.IsFinite := fun s hs =>
      (htrules s hs).of_numbers hz (fun x hx => isFinite_of_isStated hheads hlexemes hx) hzfinite
    simpa [IsFinite, heads_eq_map_walk] using hfinite

/-- A text with numbers in odd spellings, a member twice in a set, a key twice in an annotation, and
a variable without a name. -/
def oddText : String :=
  "AND(x >= 007.50\t\x7bconfidence=5e-1, confidence=-0\x7d, `` in [\"b\", \"a\", \"b\"])"

theorem exists_of_map_toOption {ε α β : Type} {x : Except ε α} {f : α → β} {b : β}
    (h : x.toOption.map f = some b) : ∃ a, x = .ok a ∧ f a = b := by
  cases x with
  | error e => cases h
  | ok a => exact ⟨a, rfl, Option.some.inj h⟩

theorem isFinite_standard : ({} : Defaults).IsFinite := ⟨Number.one, rfl, rfl, by decide +kernel⟩

theorem reprint_spec_oddText : ({} : Defaults).IsFinite ∧ ∃ r printed t,
    parseWithin parenthesisLimit {} oddText = .ok r ∧ r.print true = some printed ∧
      parseWithin parenthesisLimit {} printed = .ok t ∧ same r t = true ∧
        t.print true = some printed := by
  have hheads : (parseWithin parenthesisLimit {} oddText).toOption.map heads = some [
      { id := "r", subject := "and", operator := .and, clause := "",
        confidence := some Number.one },
      { id := "r.0", subject := "x", operator := .gte, value := some (.number (.finite (15 / 2))),
        clause := "", confidence := some .negZero },
      { id := "r.1", subject := "", operator := .isIn,
        value := some (.texts (TextSet.ofList ["a", "b"])), clause := "",
        confidence := some Number.one }] := by decide +kernel
  obtain ⟨r, hr, hheads⟩ := exists_of_map_toOption hheads
  obtain ⟨printed, hprinted, hread, -⟩ := reprint_spec isFinite_standard hr
  have hfinite : r.IsFinite := by
    rw [IsFinite, hheads]
    simp only [Head.IsFinite]
    decide
  obtain ⟨t, ht⟩ := hread hfinite {}
  exact ⟨isFinite_standard, r, printed, t, hr, hprinted, ht⟩

/-- The text of a comparison with a number that is too large. -/
def infiniteText : String := "x == inf \x7bid=\"r\", clause=\"\", confidence=1\x7d"

/-- A number that is too large is read as infinity, which is printed as a word. -/
theorem not_forall_reprint : ¬ ∀ (d : Defaults) (text : String) (r : Rule), d.IsFinite →
    parseWithin parenthesisLimit d text = .ok r → ∃ printed t, r.print true = some printed ∧
      parseWithin parenthesisLimit {} printed = .ok t ∧ same r t = true := by
  intro h
  have hprint : (parseWithin parenthesisLimit {} "x == 1e999").toOption.map (print true) =
      some (some infiniteText) := by decide +kernel
  have hread : (parseWithin parenthesisLimit {} infiniteText).toOption.isNone = true := by
    decide +kernel
  obtain ⟨r, hr, hprint⟩ := exists_of_map_toOption hprint
  obtain ⟨printed, t, hprinted, ht, -⟩ := h {} _ r isFinite_standard hr
  obtain rfl : infiniteText = printed := Option.some.inj (hprint.symm.trans hprinted)
  rw [ht] at hread
  cases hread

end Reprinting

end Rule
end Eligibility
