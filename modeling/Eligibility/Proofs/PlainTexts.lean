import Eligibility.Proofs.Acceptance
import Eligibility.Proofs.Derivations
import Eligibility.Proofs.Outlines
/-!
# The plain texts of rules

**Derivations.**  The plain text of a rule has the lexemes of a derivation, which stands for a copy
of the rule: it has the outline of the rule, and the identifiers that the places give.

**Invariants.**  The plain text of a rule is that of its outline.  So the plain texts of two rules
are the same when the outlines are, and only then, as each is read as its outline.

**Results.**
* `exists_derivation`: the derivation of the plain text of a rule.
* `parseWithin_of_plain`: the plain text of a rule is read as a copy of the rule.
* `print_plain_spec`: it is read as an equivalent rule, and two rules have one plain text just when
  they are equivalent.
-/

namespace Eligibility

namespace Text

/-- A text without blanks around it has none after characters behind it that are not blank. -/
theorem stripChars_append {cs ds : List Char} (hcs : stripChars cs = cs)
    (hds : ∀ c ∈ ds, isBlank c = false) (hne : ds ≠ []) : stripChars (cs ++ ds) = cs ++ ds := by
  have hleft : stripLeft cs = cs := by
    have hright := (List.rdropWhile_prefix isBlank (stripLeft cs)).length_le
    have hlength : (stripRight (stripLeft cs)).length = cs.length := congrArg List.length hcs
    exact (List.dropWhile_suffix isBlank).eq_of_length_le (hlength.symm.trans_le hright)
  have hwhole : stripLeft (cs ++ ds) = cs ++ ds := by
    unfold stripLeft at hleft ⊢
    rw [List.dropWhile_eq_self_iff] at hleft ⊢
    intro hpos
    cases cs with
    | nil => simp [hds]
    | cons c r => exact hleft (Nat.succ_pos _)
  rw [stripChars, hwhole, stripRight_eq, List.rdropWhile_eq_self_iff]
  intro hpos
  rw [List.getLast_append_of_ne_nil _ hne]
  simp [hds _ (List.getLast_mem hne)]

end Text

namespace Rule

section Texts

mutual

/-- The plain text of a rule is that of its outline. -/
theorem printChars_outline : ∀ r : Rule, printChars false (outline r) = printChars false r
  | node h cs => by
      have hbelow := printAll_outlineAll cs
      rw [outline, printChars, printChars, Head.outline]
      split
      · simp [hbelow, suffix]
      · cases h.value <;> simp [suffix, comparisonText, Operand.chars_plain]

theorem printAll_outlineAll : ∀ rs : List Rule, printAll false (outlineAll rs) = printAll false rs
  | [] => rfl
  | r :: rs => by
      rw [outlineAll, printAll, printAll, printChars_outline r, printAll_outlineAll rs]

end

end Texts

section Copies

open Grammar

/-- The head that a reader without annotations takes for the one of a rule. -/
def plainHead (a : Assumption) (id : Json) (h : Head) : Head where
  id := Text.strip id.display
  subject := Text.strip (Parser.statedSubject h)
  operator := h.operator
  value := h.value.map Operand.plain
  clause := Text.strip a.clause
  confidence := some a.confidence

/-- What a reader takes for a rule when its text has no annotations. -/
def plainCopy (a : Assumption) (id : String) (r : Rule) : Rule := relabel (plainHead a) (.str id) r

theorem outline_plainHead (a : Assumption) (id : Json) {h : Head} (hh : h.IsTrimmed) :
    (plainHead a id h).outline = h.outline := by
  have hoperator : (plainHead a id h).operator = h.operator := rfl
  unfold Head.outline
  rw [hoperator]
  split
  · rfl
  next ho =>
    have hsubject : (plainHead a id h).subject = h.subject := by
      simp [plainHead, Parser.statedSubject, ho, hh.subject]
    have hvalue : (plainHead a id h).value.map Operand.plain = h.value.map Operand.plain := by
      simp [plainHead, Function.comp_def, Operand.plain_plain]
    rw [hsubject, hvalue]

mutual

theorem outline_relabel {f : Json → Head → Head} : ∀ (r : Rule) (id : Json),
    (∀ s ∈ r.walk, ∀ id, (f id s.head).outline = s.head.outline) →
      outline (relabel f id r) = outline r
  | node h cs, id, hf => by
      have hhead : (f id h).outline = h.outline := hf (node h cs) (mem_walk_self _) id
      rw [relabel, outline, outline, hhead,
        outlineAll_relabelAll cs id 0 fun s hs => hf s (by simp [walk, hs])]

theorem outlineAll_relabelAll {f : Json → Head → Head} : ∀ (rs : List Rule) (id : Json)
    (place : Nat), (∀ s ∈ walkAll rs, ∀ id, (f id s.head).outline = s.head.outline) →
      outlineAll (relabelAll f id place rs) = outlineAll rs
  | [], _, _, _ => rfl
  | r :: rs, id, place, hf => by
      rw [relabelAll, outlineAll, outlineAll,
        outline_relabel r _ fun s hs => hf s (by simp [walkAll, hs]),
        outlineAll_relabelAll rs id (place + 1) fun s hs => hf s (by simp [walkAll, hs])]

end

/-- The rule to which a way leads: at each step, to the rule at a place below. -/
def at? : List Nat → Rule → Option Rule
  | [], r => some r
  | place :: way, node _ cs => cs[place]?.bind (at? way)

theorem getElem?_relabelAll (f : Json → Head → Head) (id : Json) : ∀ (rs : List Rule)
    (first place : Nat), (relabelAll f id first rs)[place]? =
      rs[place]?.map (relabel f (Parser.childId id (first + place)))
  | [], _, _ => rfl
  | r :: rs, first, 0 => rfl
  | r :: rs, first, place + 1 => by
      rw [relabelAll, List.getElem?_cons_succ, getElem?_relabelAll f id rs, List.getElem?_cons_succ,
        Nat.add_right_comm, Nat.add_assoc]

theorem at?_relabel (f : Json → Head → Head) : ∀ (way : List Nat) (id : Json) (r : Rule),
    at? way (relabel f id r) = (at? way r).map (relabel f (way.foldl Parser.childId id))
  | [], _, _ => rfl
  | place :: way, id, node h cs => by
      rw [relabel, at?, at?, getElem?_relabelAll, Nat.zero_add]
      cases cs[place]? with
      | none => rfl
      | some r => exact at?_relabel f way _ r

theorem foldl_childId (id : String) (way : List Nat) :
    way.foldl Parser.childId (.str id) = .str (way.foldl placeId id) := by
  induction way generalizing id with
  | nil => rfl
  | cons place way ih => exact ih (placeId id place)

/-- A copy has the identifiers that the ways to its rules give. -/
theorem ids_plainCopy (a : Assumption) (id : String) (r : Rule) (way : List Nat) :
    (at? way (plainCopy a id r)).map Rule.id =
      (at? way r).map fun _ => Text.strip (way.foldl placeId id) := by
  rw [plainCopy, at?_relabel, foldl_childId, Option.map_map]
  refine congrFun (congrArg Option.map (funext fun s => ?_)) _
  cases s
  rfl

theorem strip_placeId {id : String} (h : Text.strip id = id) (place : Nat) :
    Text.strip (placeId id place) = placeId id place := by
  have hid : Text.stripChars id.toList = id.toList := by
    simpa [Text.strip] using congrArg String.toList h
  have hdigits : ∀ c ∈ '.' :: Decimal.digitsOf place, Text.isBlank c = false :=
    List.forall_mem_cons.mpr ⟨by decide, fun c hc =>
      (of_isDigit_or_minus (.inl (Numeral.isDigit_digitsOf place c hc))).1⟩
  have := Text.stripChars_append hid hdigits (by simp)
  simp [Text.strip, placeId, this, String.append_assoc]

/-- Identifiers that places give have no blanks around them when the first one has none. -/
theorem strip_foldl_placeId {id : String} (h : Text.strip id = id) (way : List Nat) :
    Text.strip (way.foldl placeId id) = way.foldl placeId id := by
  induction way generalizing id with
  | nil => exact h
  | cons place way ih => exact ih (strip_placeId h place)

end Copies

namespace Grammar

theorem textOf_quoteChars (s : String) : textOf (Text.quoteChars s.toList) = s := by
  simp [textOf, Text.quoteChars, Text.unquote_escape]

theorem exists_subject_of_name (name : String) :
    ∃ s : Subject, s.lexeme = variableLexeme name.toList ∧ s.name = name := by
  unfold variableLexeme variableText
  split
  · next hname =>
    have hword : name.toList ∉ words := by simp_all
    exact ⟨.word name.toList hword, rfl, by simp [Subject.name]⟩
  · exact ⟨.ticked ('`' :: (doubleTicks name.toList ++ ['`'])), rfl,
      by simp [Subject.name, Parser.unticked_doubleTicks]⟩

theorem exists_literal_of_operand {v : Operand} (hv : ∀ x, v = .number x → IsWritable x) :
    ∃ l : Literal, l.lexemes = operandLexemes v ∧ l.operand = v.plain := by
  cases v with
  | number x =>
      have hx := hv x rfl
      have hlexeme : ((.number, x.brief) : Lexeme) = numberLexeme x := by
        rw [numberLexeme, if_pos hx.finite]
      have hnumber := (Parser.numberOf_of_lexeme (u := ⟨.number, x.brief, 0⟩) hx hlexeme).2
      exact ⟨.number x.brief, congrArg (fun l => [l]) hlexeme, congrArg Operand.number hnumber⟩
  | text s => exact ⟨.text (Text.quoteChars s.toList), rfl, congrArg _ (textOf_quoteChars s)⟩
  | flag b => exact ⟨.flag b, rfl, rfl⟩
  | texts s =>
      refine ⟨.texts (s.members.map fun s => Text.quoteChars s.toList), ?_, ?_⟩
      · simp [Literal.lexemes, operandLexemes, quotation, quoted, Function.comp_def]
      · simp [Literal.operand, Operand.plain, Function.comp_def, textOf_quoteChars,
          TextSet.ofList_members]

mutual

/-- The plain text of a rule has the lexemes of a derivation, which stands for a copy of the
rule. -/
theorem exists_derivation (a : Assumption) : ∀ r : Rule, (∀ s ∈ r.walk, s.IsPrintable) →
    ∃ e : Derivation, e.lexemes = lexemes false r ∧ ∀ id, e.rule a id = plainCopy a id r
  | node h cs, hr => by
      obtain ⟨hshape, -, -, hnumbers⟩ := hr (node h cs) (mem_walk_self _)
      cases ho : h.operator.isLogical with
      | false =>
          obtain ⟨hcs, v, hv⟩ := hshape.comparison ho
          replace hv : h.value = some v := hv
          obtain rfl : cs = [] := by simpa using hcs
          obtain ⟨s, hs, hname⟩ := exists_subject_of_name h.subject
          obtain ⟨l, hl, hoperand⟩ := exists_literal_of_operand fun x hx =>
            hnumbers x (Head.mem_numbers_value (hv.trans (congrArg some hx)))
          refine ⟨.comparison s h.operator ho l [], ?_, fun id => ?_⟩
          · simp [Derivation.lexemes, lexemes, ho, hv, comparisonLexemes, suffixLexemes, hs, hl,
              Note.lexemes]
          · simp [Derivation.rule, plainCopy, relabel, relabelAll, plainHead, Note.head, Note.said,
              Note.stated, Parser.statedSubject, ho, hv, hname, hoperand]
      | true =>
          have hvalue : h.value = none := (hshape.logical ho).1
          obtain ⟨es, hes, hrules⟩ := exists_derivations a cs fun s hs => hr s (by simp [walk, hs])
          cases es with
          | nil =>
              have hcs : cs ≠ [] := by simpa using (hshape.logical ho).2
              cases cs with
              | nil => exact absurd rfl hcs
              | cons c cs => cases hes
          | cons e es =>
              refine ⟨.logical h.operator ho e es [], ?_, fun id => ?_⟩
              · rw [lexemes_logical, siblingLexemes, ← Derivation.lexemesAll_eq_map, hes]
                simp [lexemes, ho, suffixLexemes, Note.lexemes]
              · have hbelow := hrules id 0
                rw [Derivation.rulesAll] at hbelow
                rw [Derivation.rule, hbelow]
                simp [plainCopy, relabel, plainHead, Note.head, Note.said, Note.stated,
                  Parser.statedSubject, ho, hvalue]

theorem exists_derivations (a : Assumption) : ∀ rs : List Rule,
    (∀ s ∈ walkAll rs, s.IsPrintable) → ∃ es : List Derivation,
      Derivation.lexemesAll es = lexemesAll false rs ∧
        ∀ id place, Derivation.rulesAll a id place es =
          relabelAll (plainHead a) (.str id) place rs
  | [], _ => ⟨[], rfl, fun _ _ => rfl⟩
  | r :: rs, hr => by
      obtain ⟨e, he, hrule⟩ := exists_derivation a r fun s hs => hr s (by simp [walkAll, hs])
      obtain ⟨es, hes, hrules⟩ := exists_derivations a rs fun s hs => hr s (by simp [walkAll, hs])
      refine ⟨e :: es, by rw [Derivation.lexemesAll, lexemesAll, he, hes], fun id place => ?_⟩
      rw [Derivation.rulesAll, relabelAll, hrule, hrules]
      rfl

end

/-- A token with a quoted lexeme can be read when that is the quotation of a text. -/
theorem misread?_of_quoted {t : Token}
    (h : t.lexeme.1 = .quoted → ∃ s, t.lexeme = quoted s) : t.misread? = none := by
  unfold Token.misread?
  split
  · next hkind =>
    obtain ⟨s, hs⟩ := h hkind
    have htext : t.text = Text.quoteChars s.toList := congrArg Prod.snd hs
    simp [htext, Text.quoteChars, Text.unquote_escape]
  · rfl

end Grammar

section Quotations

/-- Whether the quoted texts among lexemes are the quotations of texts. -/
def QuotesTexts (ls : List Lexeme) : Prop := ∀ l ∈ ls, l.1 = .quoted → ∃ s, l = quoted s

variable {ls ms : List Lexeme}

theorem quotesTexts_nil : QuotesTexts [] := List.forall_mem_nil _

theorem QuotesTexts.cons {l : Lexeme} (hl : l.1 ≠ .quoted) (h : QuotesTexts ls) :
    QuotesTexts (l :: ls) := List.forall_mem_cons.mpr ⟨fun hk => absurd hk hl, h⟩

theorem QuotesTexts.append (h : QuotesTexts ls) (h' : QuotesTexts ms) : QuotesTexts (ls ++ ms) :=
  List.forall_mem_append.mpr ⟨h, h'⟩

theorem quotesTexts_quoted (s : String) : QuotesTexts [quoted s] :=
  List.forall_mem_singleton.mpr fun _ => ⟨s, rfl⟩

theorem quotesTexts_commaLexemes {lss : List (List Lexeme)} (h : ∀ ls ∈ lss, QuotesTexts ls) :
    QuotesTexts (commaLexemes lss) := by
  cases lss with
  | nil => exact quotesTexts_nil
  | cons ls lss =>
      rw [Parser.commaLexemes_cons]
      refine (h ls (by simp)).append fun l hl => ?_
      obtain ⟨ms, hms, hl⟩ := List.mem_flatMap.mp hl
      exact QuotesTexts.cons (by decide) (h ms (List.mem_cons_of_mem _ hms)) l hl

theorem quotesTexts_operand (v : Operand) : QuotesTexts (operandLexemes v) := by
  cases v with
  | number x =>
      refine quotesTexts_nil.cons ?_
      unfold numberLexeme
      split <;> simp
  | text s => exact quotesTexts_quoted s
  | flag b => exact quotesTexts_nil.cons (by simp)
  | texts s =>
      have hmembers : QuotesTexts (commaLexemes (s.members.map fun s => [quoted s])) :=
        quotesTexts_commaLexemes (List.forall_mem_map.mpr fun s _ => quotesTexts_quoted s)
      exact (hmembers.append (quotesTexts_nil.cons (by decide))).cons (by decide)

theorem quotesTexts_comparison (h : Head) (v : Operand) : QuotesTexts (comparisonLexemes h v) := by
  have hsign : QuotesTexts (signLexemes h.operator) := by
    have hne : ∀ o : Operator, ∀ l ∈ signLexemes o, l.1 ≠ .quoted := fun o => by
      cases o <;> simp [signLexemes]
    exact fun l hl hk => absurd hk (hne _ l hl)
  refine (hsign.append (quotesTexts_operand v)).cons ?_
  simp only [variableLexeme]
  split <;> decide

mutual

theorem quotesTexts_lexemes : ∀ r : Rule, QuotesTexts (lexemes false r)
  | node h cs => by
      rw [lexemes]
      refine QuotesTexts.append ?_ quotesTexts_nil
      split
      · exact (((quotesTexts_commaLexemes (quotesTexts_lexemesAll cs)).append
          (quotesTexts_nil.cons (by decide))).cons (by decide)).cons (by simp)
      · cases h.value with
        | none => exact quotesTexts_nil
        | some v => exact quotesTexts_comparison h v

theorem quotesTexts_lexemesAll : ∀ rs : List Rule, ∀ ls ∈ lexemesAll false rs, QuotesTexts ls
  | [], ls, hls => by cases hls
  | r :: rs, ls, hls => by
      rw [lexemesAll] at hls
      rcases List.mem_cons.mp hls with rfl | hls
      · exact quotesTexts_lexemes r
      · exact quotesTexts_lexemesAll rs ls hls

end

end Quotations

section Reading

open Grammar

variable {r : Rule}

/-- The plain text of a rule is read as a copy of the rule. -/
theorem parseWithin_of_plain {levels : Nat} (a : Assumption) (id : String)
    (hr : ∀ s ∈ r.walk, s.IsPrintable) (hdepth : r.depth ≤ levels + 1) :
    ∃ text, r.print false = some text ∧
      parseWithin levels (a.defaults id) text = .ok (plainCopy a id r) := by
  have hshape := fun s hs => (hr s hs).shape
  have hnumerals : ∀ h ∈ r.heads, ∀ x ∈ h.numbers, HasNumeral false x := by
    rw [heads_eq_map_walk]
    exact List.forall_mem_map.mpr fun s hs x hx => ((hr s hs).numbers x hx).hasNumeral
  obtain ⟨cs, hcs⟩ := exists_printChars false r hshape
  obtain ⟨ts, hsplit, hts⟩ := exists_split_printChars hnumerals hcs
  obtain ⟨e, he, hrule⟩ := exists_derivation a r hr
  have hread : ∀ t ∈ ts, t.misread? = none := fun t ht => misread?_of_quoted
    (quotesTexts_lexemes r t.lexeme (hts ▸ List.mem_map_of_mem ht))
  have hrun : Runs e.lexemes ts (.ok []) := runs_ok_nil_iff.mpr ⟨hts.trans he.symm, hread⟩
  have hparse :=
    @parse_of_runs a id (String.ofList cs) ts e _ (by simpa using hsplit) hrun (by simp)
  have hdeep : tokensAbove? levels 0 ts = none := by
    simpa [tokensAbove?] using passes_lexemes false r hshape hdepth ts [] 0 hts
  refine ⟨String.ofList cs, by simp [print, hcs], ?_⟩
  rw [← hrule id]
  exact parseWithin_of_parse (by simpa using hsplit) hdeep hparse

theorem outline_plainCopy (a : Assumption) (id : String) (hr : ∀ s ∈ r.walk, s.IsPrintable) :
    outline (plainCopy a id r) = outline r :=
  outline_relabel r _ fun s hs id => outline_plainHead a id (hr s hs).trimmed

/-- The rules of an accepted payload are written so that they are read back. -/
theorem isPrintable_of_parse {cfg : Settings} {payload : Json} {s : RuleSet}
    (hx : payload.HasDoubles) (hs : RuleSet.parse cfg payload = .ok s) (hr : r ∈ walkAll s.rules) :
    (∀ t ∈ r.walk, t.IsPrintable) ∧ r.depth ≤ levelLimit := by
  obtain ⟨hpayload, haccepted⟩ := RuleSet.of_parse hs
  refine ⟨fun t ht => ?_, (RuleSet.of_ofPayload hpayload hr).2⟩
  have ht := (walkAll_sublist_of_mem s.rules hr).subset ht
  have hsound := haccepted.sound t ht
  have hdoubles := RuleSet.hasDoubles_of_ofPayload hpayload hx ht
  obtain ⟨x, hconfidence, -⟩ := hsound.confidence
  exact ⟨hsound.hasShape, (RuleSet.of_ofPayload hpayload ht).1, by simp [hconfidence],
    fun x hmem => ⟨hsound.isFinite x hmem, hdoubles.isDouble hmem⟩⟩

/-- The plain text of a rule of an accepted payload is read as an equivalent rule, in which the
places give the identifiers, and only equivalent rules have the same plain text. -/
theorem print_plain_spec {cfg cfg' : Settings} {payload payload' : Json} {s s' : RuleSet}
    {r r' : Rule} (a : Assumption) (id : String) (hx : payload.HasDoubles)
    (hs : RuleSet.parse cfg payload = .ok s) (hr : r ∈ walkAll s.rules)
    (hx' : payload'.HasDoubles) (hs' : RuleSet.parse cfg' payload' = .ok s')
    (hr' : r' ∈ walkAll s'.rules) :
    (∃ text t, r.print false = some text ∧
      parseWithin parenthesisLimit (a.defaults id) text = .ok t ∧ equivalent r t = true ∧
        ∀ way : List Nat, (at? way t).map Rule.id =
          (at? way r).map fun _ => Text.strip (way.foldl placeId id)) ∧
    (Text.strip id = id → ∀ way : List Nat,
      Text.strip (way.foldl placeId id) = way.foldl placeId id) ∧
    (r.print false = r'.print false ↔ equivalent r r' = true) := by
  obtain ⟨hprintable, hdepth⟩ := isPrintable_of_parse hx hs hr
  obtain ⟨hprintable', hdepth'⟩ := isPrintable_of_parse hx' hs' hr'
  have hfinite : ∀ s ∈ r.walk, s.head.IsFinite := fun s hs x hx =>
    ((hprintable s hs).numbers x hx).finite
  have hlimit : levelLimit ≤ parenthesisLimit + 1 := by decide
  obtain ⟨text, htext, hread⟩ := parseWithin_of_plain a id hprintable (hdepth.trans hlimit)
  obtain ⟨text', htext', hread'⟩ := parseWithin_of_plain a id hprintable' (hdepth'.trans hlimit)
  have hcopy := outline_plainCopy a id hprintable
  refine ⟨⟨text, plainCopy a id r, htext, hread, ?_, ids_plainCopy a id r⟩,
    strip_foldl_placeId, ?_⟩
  · exact (equivalent_iff hfinite).mpr hcopy.symm
  · rw [equivalent_iff hfinite]
    constructor
    · intro hprint
      obtain rfl : text = text' := Option.some.inj (htext.symm.trans (hprint.trans htext'))
      have hsame : plainCopy a id r = plainCopy a id r' :=
        Except.ok.inj (hread.symm.trans hread')
      rw [← hcopy, hsame, outline_plainCopy a id hprintable']
    · intro houtline
      rw [print, print, ← printChars_outline r, houtline, printChars_outline r']

/-- The negation of a comparison under other names, with other clauses and confidences. -/
def renamedNegation : Rule :=
  .node { id := "s", subject := "both", operator := .not, clause := "d",
          confidence := some (.finite (1 / 2)) }
    [.node { id := "t", subject := "`in`", operator := .gte,
             value := some (.number (.finite (5 / 2))), clause := "e",
             confidence := some Number.one } []]

def renamedPayload : Json := .obj [("rules", .arr [renamedNegation.toJson])]

theorem print_plain_spec_quotedNegation :
    (∃ text t, quotedNegation.print false = some text ∧
      parseWithin parenthesisLimit ((⟨"", Number.one⟩ : Assumption).defaults "r") text = .ok t ∧
        equivalent quotedNegation t = true ∧ (at? [0] t).map Rule.id = some "r.0") ∧
    quotedNegation.print false = renamedNegation.print false := by
  have hread : RuleSet.ofPayload quotedPayload = .ok { rules := [quotedNegation] } := rfl
  have hread' : RuleSet.ofPayload renamedPayload = .ok { rules := [renamedNegation] } := rfl
  have hfault : RuleSet.fault? .standard { rules := [quotedNegation] } = none := by decide +kernel
  have hfault' : RuleSet.fault? .standard { rules := [renamedNegation] } = none := by
    decide +kernel
  obtain ⟨⟨text, t, htext, ht, hsame, hids⟩, htrim, hprint⟩ :=
    print_plain_spec ⟨"", Number.one⟩ "r" (by decide +kernel : quotedPayload.HasDoubles)
      (by simp only [RuleSet.parse, hread, RuleSet.validate, hfault] :
        RuleSet.parse .standard quotedPayload = .ok { rules := [quotedNegation] })
      (by simp [walkAll, mem_walk_self] : quotedNegation ∈ _)
      (by decide +kernel : renamedPayload.HasDoubles)
      (by simp only [RuleSet.parse, hread', RuleSet.validate, hfault'] :
        RuleSet.parse .standard renamedPayload = .ok { rules := [renamedNegation] })
      (by simp [walkAll, mem_walk_self] : renamedNegation ∈ _)
  refine ⟨⟨text, t, htext, ht, hsame, ?_⟩, hprint.mpr (by decide +kernel)⟩
  rw [hids, htrim (by decide +kernel)]
  decide +kernel

end Reading

end Rule
end Eligibility
