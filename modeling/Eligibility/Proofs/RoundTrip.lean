import Eligibility.Proofs.Parsing
import Eligibility.Proofs.ReadRules
import Eligibility.Rule.Nesting
/-!
# Printed rules are read back

**Trees.**  An expression is read back as the tree it was printed from, provided that what
follows each rule gives back the head of the rule.  The induction follows the tree; the
bound on the steps is twice the number of lexemes, which each step of reading lowers.

**Heads.**  An annotation gives back the whole head: identifier, variable, clause,
confidence and group come from its entries, operator and operand from the rule itself.
Reading takes the blanks around texts away, and rules of payloads have none there.

**Results.**
* `yields_expression`: an expression is read from the lexemes of a rule.
* `parseWithin_of_print`: the annotated text of a rule with finite numbers is read as the rule.
* `exists_same_of_print`: the annotated text of a rule of an accepted rule set is read as the
  rule.
-/

namespace Eligibility

namespace Head

/-- A head with the zeros with a minus sign taken for those without. -/
def plain (h : Head) : Head :=
  { h with value := h.value.map Operand.plain, confidence := h.confidence.map Number.plain }

/-- A head that has a text with a number of rules below it: comparisons have an operand, and
logical rules have rules below them instead. -/
structure HasShape (h : Head) (children : Nat) : Prop where
  comparison : h.operator.isLogical = false → children = 0 ∧ ∃ v, h.value = some v
  logical : h.operator.isLogical = true → h.value = none ∧ children ≠ 0

theorem IsSound.hasShape {h : Head} {n : Nat} (hs : h.IsSound n) : h.HasShape n where
  comparison ho := (hs.comparison ho).imp_right fun hv => hv.imp fun _ => And.left
  logical ho := (hs.logical ho).imp_right And.left

end Head

namespace Rule

mutual

/-- A rule with its heads changed by a function of the identifiers that its places give. -/
def relabel (f : Json → Head → Head) (id : Json) : Rule → Rule
  | node h cs => node (f id h) (relabelAll f id 0 cs)

/-- Rules with their heads changed, the first at a given place. -/
def relabelAll (f : Json → Head → Head) (id : Json) (place : Nat) : List Rule → List Rule
  | [] => []
  | r :: rs => relabel f (Parser.childId id place) r :: relabelAll f id (place + 1) rs

end

namespace Parser

section Expressions

/-- What the parser takes the variable of a rule to be before it reads an annotation. -/
def statedSubject (h : Head) : String :=
  if h.operator.isLogical then Schema.lowerAscii h.operator.name else h.subject

/-- What follows a rule gives a head back. -/
def Restores (stop : Nat) (d : Defaults) (annotate : Bool) (f : Json → Head → Head)
    (h : Head) : Prop :=
  ∀ id below ms, ms.head? ≠ some (mark '{') →
    Yields (annotated stop h.operator.isLogical
      (headOf d id (statedSubject h) h.operator (h.value.map Operand.plain)) below)
      (suffixLexemes annotate h ++ ms) (node (f id h) below) ms

/-- A rule that has a text, with numbers that are read back, and whose head is restored. -/
structure IsRestored (stop : Nat) (d : Defaults) (annotate : Bool) (f : Json → Head → Head)
    (r : Rule) : Prop where
  shape : r.head.HasShape r.children.length
  numbers : ∀ x ∈ r.head.numbers, IsWritable x
  head : Restores stop d annotate f r.head

variable {stop : Nat} {d : Defaults} {annotate : Bool} {f : Json → Head → Head}

theorem yields_leaf {h : Head} {v : Operand} (ho : h.operator.isLogical = false)
    (hv : h.value = some v) (hx : ∀ x, v = .number x → IsWritable x)
    (hf : Restores stop d annotate f h) (id : Json) {ms : List Lexeme}
    (hms : ms.head? ≠ some (mark '{')) :
    Yields (leaf stop d id) (comparisonLexemes h v ++ (suffixLexemes annotate h ++ ms))
      (node (f id h) []) ms := by
  intro ts hts
  rw [comparisonLexemes, List.cons_append, List.append_assoc] at hts
  obtain ⟨u, us, rfl, hu, hus⟩ := List.map_eq_cons_iff.mp hts
  obtain ⟨vs, hsign, hvs⟩ := yields_comparison stop ho us hus
  obtain ⟨ws, hliteral, hws⟩ := yields_literal stop hx vs hvs
  obtain ⟨xs, hhead, hxs⟩ := hf id [] ms hms ws hws
  have hsubject : statedSubject h = h.subject := by simp [statedSubject, ho]
  rw [ho, hv, hsubject] at hhead
  refine ⟨xs, ?_, hxs⟩
  simpa [leaf, next, (subject?_of_lexeme hu).1, hsign, hliteral] using hhead

/-- A logical word before a parenthesis begins a logical rule. -/
theorem logicalStart?_eq_some {o : Operator} (ho : o.isLogical = true) {u v : Token}
    (hkind : u.kind = .word) (hu : u.text = o.name.toList) (hv : v.text = ['('])
    (rest : List Token) : logicalStart? (u :: v :: rest) = some o := by
  have hlookup : logicalWords.lookup o.name.toList = some o := by
    cases o with
    | and => rfl
    | or => rfl
    | not => rfl
    | _ => cases ho
  simp only [logicalStart?, hkind, hv, hu, and_self, if_true, hlookup]

theorem logicalStart?_eq_none {u : Token} {rest : List Token} {name : String}
    (hu : u.lexeme = variableLexeme name.toList) : logicalStart? (u :: rest) = none := by
  have hword := (subject?_of_lexeme hu).2
  cases rest with
  | nil => rfl
  | cons v rest =>
      simp only [logicalStart?]
      split
      · next h => exact hword h.1
      · rfl

theorem yields_comparisonRule {h : Head} {cs : List Rule}
    (hr : IsRestored stop d annotate f (node h cs)) (ho : h.operator.isLogical = false)
    (fuel : Nat) (id : Json) {ms : List Lexeme} (hms : ms.head? ≠ some (mark '{')) :
    Yields (expression stop d (fuel + 1) id) (lexemes annotate (node h cs) ++ ms)
      (relabel f id (node h cs)) ms := by
  intro ts hts
  obtain ⟨hcs, v, hv⟩ := hr.shape.comparison ho
  replace hv : h.value = some v := hv
  replace hcs : cs = [] := by simpa using hcs
  subst hcs
  have hx : ∀ x, v = .number x → IsWritable x := fun x hvx =>
    hr.numbers x (Head.mem_numbers_value (hv.trans (congrArg some hvx)))
  have hlexemes : lexemes annotate (node h []) =
      comparisonLexemes h v ++ suffixLexemes annotate h := by
    simp [lexemes, ho, hv]
  rw [hlexemes, List.append_assoc] at hts
  obtain ⟨us, hleaf, hus⟩ := yields_leaf ho hv hx hr.head id hms ts hts
  rw [comparisonLexemes, List.cons_append] at hts
  obtain ⟨u, vs, rfl, hu, -⟩ := List.map_eq_cons_iff.mp hts
  refine ⟨us, ?_, hus⟩
  simpa [expression, logicalStart?_eq_none hu, relabel, relabelAll] using hleaf

/-- A logical rule is read as an expression if the rules below it are read. -/
theorem yields_logicalRule {h : Head} {cs : List Rule}
    (hr : IsRestored stop d annotate f (node h cs)) (ho : h.operator.isLogical = true)
    {fuel : Nat} {id : Json} {ms : List Lexeme} (hms : ms.head? ≠ some (mark '{'))
    (hbelow : ∀ ns : List Lexeme, ns.head? ≠ some (mark '{') → ns.head? ≠ some (mark ',') →
      Yields (siblings stop d fuel id 0) (commaLexemes (lexemesAll annotate cs) ++ ns)
        (relabelAll f id 0 cs) ns) :
    Yields (expression stop d (fuel + 1) id) (lexemes annotate (node h cs) ++ ms)
      (relabel f id (node h cs)) ms := by
  intro ts hts
  have hvalue : h.value = none := (hr.shape.logical ho).1
  rw [lexemes] at hts
  simp only [ho, if_true, List.cons_append, List.append_assoc] at hts
  obtain ⟨u, us, rfl, hukind, hutext, hus⟩ := exists_token hts
  obtain ⟨v, vs, rfl, -, hvtext, hvs⟩ := exists_token hus
  obtain ⟨ws, hread, hws⟩ := hbelow _ (by simp [mark]) (by simp [mark]) vs hvs
  obtain ⟨xs, hclose, hxs⟩ := exists_expect stop (by decide) hws
  obtain ⟨ys, hhead, hys⟩ := hr.head id (relabelAll f id 0 cs) ms hms xs hxs
  have hsubject : statedSubject h = Schema.lowerAscii h.operator.name := by
    simp [statedSubject, ho]
  have hstart := logicalStart?_eq_some ho hukind hutext hvtext vs
  rw [head_node, ho, hvalue, hsubject] at hhead
  refine ⟨ys, ?_, hys⟩
  simpa [expression, hstart, hread, hclose, relabel] using hhead

theorem length_lexemes_pos {h : Head} {cs : List Rule}
    (hr : IsRestored stop d annotate f (node h cs)) :
    0 < (lexemes annotate (node h cs)).length := by
  cases ho : h.operator.isLogical with
  | true => simp [lexemes, ho]
  | false =>
      obtain ⟨-, v, hv⟩ := hr.shape.comparison ho
      replace hv : h.value = some v := hv
      simp [lexemes, ho, hv, comparisonLexemes]

mutual

/-- An expression is read from the lexemes of a rule. -/
theorem yields_expression : ∀ (r : Rule) (fuel : Nat) (id : Json) (ms : List Lexeme),
    (∀ t ∈ r.walk, IsRestored stop d annotate f t) → 2 * (lexemes annotate r).length ≤ fuel →
    ms.head? ≠ some (mark '{') →
      Yields (expression stop d fuel id) (lexemes annotate r ++ ms) (relabel f id r) ms
  | node h cs, fuel, id, ms, hr, hfuel, hms => by
      have hself := hr (node h cs) (mem_walk_self _)
      have hpos := length_lexemes_pos hself
      obtain ⟨fuel, rfl⟩ : ∃ k, fuel = k + 1 := ⟨fuel - 1, by omega⟩
      cases ho : h.operator.isLogical with
      | false => exact yields_comparisonRule hself ho fuel id hms
      | true =>
          have hcs : cs ≠ [] := by simpa using (hself.shape.logical ho).2
          -- the word and the parentheses leave a step for the rules below
          have hlen : 2 * (commaLexemes (lexemesAll annotate cs)).length < fuel := by
            simp only [lexemes, ho, if_true, List.length_append, List.length_cons] at hfuel
            omega
          exact yields_logicalRule hself ho hms fun ns hbrace hcomma =>
            yields_siblings cs fuel id 0 ns hcs (fun t ht => hr t (by simp [walk, ht])) hlen
              hbrace hcomma

/-- Expressions separated by commas are read from the lexemes of several rules. -/
theorem yields_siblings : ∀ (rs : List Rule) (fuel : Nat) (id : Json) (place : Nat)
    (ms : List Lexeme), rs ≠ [] → (∀ t ∈ walkAll rs, IsRestored stop d annotate f t) →
    2 * (commaLexemes (lexemesAll annotate rs)).length < fuel →
    ms.head? ≠ some (mark '{') → ms.head? ≠ some (mark ',') →
      Yields (siblings stop d fuel id place) (commaLexemes (lexemesAll annotate rs) ++ ms)
        (relabelAll f id place rs) ms
  | [], fuel, id, place, ms, hne, hr, hfuel, hms, hcomma, ts, hts => absurd rfl hne
  | [r], fuel + 1, id, place, ms, hne, hr, hfuel, hms, hcomma, ts, hts => by
      simp only [lexemesAll, commaLexemes] at hts hfuel
      obtain ⟨us, hread, hus⟩ := yields_expression r fuel (childId id place) ms
        (fun t ht => hr t (by simp [walkAll, ht])) (by omega) hms ts hts
      have hat : atMark ',' us = false := atMark_eq_false hus hcomma
      exact ⟨us, by simp [siblings, hread, hat, relabelAll], hus⟩
  | r :: s :: rs, fuel + 1, id, place, ms, hne, hr, hfuel, hms, hcomma, ts, hts => by
      simp only [lexemesAll, commaLexemes, List.append_assoc, List.cons_append,
        List.length_append, List.length_cons] at hts hfuel
      obtain ⟨us, hread, hus⟩ := yields_expression r fuel (childId id place) _
        (fun t ht => hr t (by simp [walkAll, ht])) (by omega) (by simp [mark]) ts hts
      have hat : atMark ',' us = true := atMark_eq_true hus
      obtain ⟨u, us, rfl, -, -, hus⟩ := exists_token hus
      obtain ⟨vs, hrest, hvs⟩ := yields_siblings (s :: rs) fuel id (place + 1) ms (by simp)
        (fun t ht => hr t (by rw [walkAll]; exact List.mem_append_right _ ht))
        (by simp only [lexemesAll]; omega) hms hcomma us hus
      exact ⟨vs, by simp [siblings, hread, hat, hrest, Except.map, relabelAll], hvs⟩

end

end Expressions

section Heads

variable {stop : Nat} {d : Defaults} {h : Head}

/-- The annotation of a head gives the head back. -/
theorem headOf_annotationOf (ht : h.IsTrimmed) (hc : h.confidence ≠ none) (id : Json) :
    headOf d id (statedSubject h) h.operator (h.value.map Operand.plain) (annotationOf h) =
      .ok h.plain := by
  obtain ⟨x, hx⟩ := Option.ne_none_iff_exists'.mp hc
  have hsubject : Text.strip ((annotationOf h).subject.getD (statedSubject h)) = h.subject := by
    cases ho : h.operator.isLogical <;> simp [annotationOf, statedSubject, ho, ht.subject]
  have hid : identifier (.str h.id) = .ok h.id := by rw [identifier, ht.id]
  have hclause : identifier (.str h.clause) = .ok h.clause := by rw [identifier, ht.clause]
  unfold headOf
  rw [hsubject]
  simp [annotationOf, hid, hclause, hx, Schema.nullable, Schema.number, Head.plain]

/-- An annotation restores the head of the rule before it. -/
theorem annotation_restores (d : Defaults) (stop : Nat) (ht : h.IsTrimmed)
    (hc : h.confidence ≠ none) (hx : ∀ x, h.confidence = some x → IsWritable x) :
    Restores stop d true (fun _ h => h.plain) h := by
  intro id below ms _ ts hts
  obtain ⟨us, hread, hus⟩ := annotation_yields stop hx ts hts
  refine ⟨us, ?_, hus⟩
  simp [annotated, hread, headOf_annotationOf ht hc, built, Except.map]

end Heads

end Parser

section Levels

/-- The tokens of given lexemes close as many levels as they open, and never open more levels
than are left. -/
def Passes (left : Nat) (ls : List Lexeme) : Prop :=
  ∀ (ts rest : List Token) (count : Nat), ts.map Token.lexeme = ls →
    tokensAbove? left count (ts ++ rest) = tokensAbove? left (count + ts.length) rest

variable {left : Nat} {ls ms : List Lexeme}

theorem Passes.append (hl : Passes left ls) (hm : Passes left ms) : Passes left (ls ++ ms) := by
  intro ts rest count h
  obtain ⟨us, vs, rfl, hus, hvs⟩ := List.map_eq_append_iff.mp h
  rw [List.append_assoc, hl us _ _ hus, hm vs _ _ hvs, List.length_append, Nat.add_assoc]

theorem passes_nil : Passes left [] := by
  intro ts rest count h
  simp [List.map_eq_nil_iff.mp h]

/-- A lexeme that is no parenthesis leaves the levels as they are. -/
theorem Passes.cons {l : Lexeme} (ho : l ≠ mark '(') (hc : l ≠ mark ')') (h : Passes left ls) :
    Passes left (l :: ls) := by
  intro ts rest count hts
  obtain ⟨t, us, rfl, ht, hus⟩ := List.map_eq_cons_iff.mp hts
  have ho : ¬ (t.kind = .mark ∧ t.text = ['(']) := fun hm => ho (by
    rw [← ht, Token.lexeme, hm.1, hm.2, mark])
  have hc : ¬ (t.kind = .mark ∧ t.text = [')']) := fun hm => hc (by
    rw [← ht, Token.lexeme, hm.1, hm.2, mark])
  rw [List.cons_append, tokensAbove?.eq_def]
  simp only [if_neg ho, if_neg hc]
  rw [h us rest _ hus, List.length_cons, Nat.add_right_comm, Nat.add_assoc]

theorem passes_of_forall (h : ∀ l ∈ ls, l ≠ mark '(' ∧ l ≠ mark ')') : Passes left ls := by
  induction ls with
  | nil => exact passes_nil
  | cons l ls ih =>
      obtain ⟨ho, hc⟩ := h l (by simp)
      exact Passes.cons ho hc (ih fun m hm => h m (List.mem_cons_of_mem _ hm))

/-- What stands between parentheses has one level less. -/
theorem Passes.between (h : Passes left ls) :
    Passes (left + 1) (mark '(' :: (ls ++ [mark ')'])) := by
  intro ts rest count hts
  obtain ⟨t, us, rfl, ht, hus⟩ := List.map_eq_cons_iff.mp hts
  obtain ⟨vs, ws, rfl, hvs, hws⟩ := List.map_eq_append_iff.mp hus
  obtain ⟨w, xs, rfl, hw, hxs⟩ := List.map_eq_cons_iff.mp hws
  obtain rfl := List.map_eq_nil_iff.mp hxs
  simp only [Token.lexeme, mark, Prod.mk.injEq] at ht hw
  rw [List.cons_append, tokensAbove?.eq_def]
  simp only [if_pos ht, List.append_assoc]
  rw [h vs _ _ hvs, List.singleton_append, tokensAbove?.eq_def]
  simp [hw, Nat.add_left_comm, Nat.add_comm]

theorem passes_commaLexemes {lss : List (List Lexeme)} (h : ∀ ls ∈ lss, Passes left ls) :
    Passes left (commaLexemes lss) := by
  induction lss with
  | nil => exact passes_nil
  | cons ls lss ih =>
      have hls := h ls (by simp)
      have hrest := ih fun ms hm => h ms (List.mem_cons_of_mem _ hm)
      cases lss with
      | nil => exact hls
      | cons ms lss => exact hls.append (hrest.cons (by decide) (by decide))

theorem Passes.cons_of_ne {l : Lexeme} (hl : l.1 ≠ .mark) (h : Passes left ls) :
    Passes left (l :: ls) :=
  h.cons (fun he => hl (he ▸ rfl)) (fun he => hl (he ▸ rfl))

theorem kind_numberLexeme_ne (x : Number) : (numberLexeme x).1 ≠ .mark := by
  unfold numberLexeme
  split <;> simp

theorem annotation_passes (h : Head) : Passes left (annotationLexemes h) := by
  have hentry : ∀ e : Entry, Passes left e.lexemes := fun e => by
    have hvalue : e.value.1 ≠ .mark := by
      cases e with
      | text k s => simp [Entry.value, quoted]
      | confidence x => exact kind_numberLexeme_ne x
    exact Passes.cons_of_ne (by simp) (Passes.cons (by decide) (by decide)
      (passes_nil.cons_of_ne hvalue))
  have hentries : Passes left (commaLexemes ((entries h).map Entry.lexemes)) :=
    passes_commaLexemes (by simpa using fun e _ => hentry e)
  exact (hentries.append (passes_nil.cons (by decide) (by decide))).cons (by decide) (by decide)

theorem passes_operand (v : Operand) : Passes left (operandLexemes v) := by
  cases v with
  | number x => exact passes_nil.cons_of_ne (kind_numberLexeme_ne x)
  | text s => exact passes_nil.cons_of_ne (by simp [quoted])
  | flag b => exact passes_nil.cons_of_ne (by simp)
  | texts s =>
      have hmembers : Passes left (commaLexemes (s.members.map fun s => [quoted s])) :=
        passes_commaLexemes (by simpa using fun s _ => passes_nil.cons_of_ne (by simp [quoted]))
      exact (hmembers.append (passes_nil.cons (by decide) (by decide))).cons (by decide) (by decide)

theorem passes_comparison (h : Head) (v : Operand) : Passes left (comparisonLexemes h v) := by
  have hsign : Passes left (signLexemes h.operator) := by
    cases h.operator <;> exact passes_of_forall (by decide)
  refine Passes.cons_of_ne ?_ (hsign.append (passes_operand v))
  simp only [variableLexeme]
  split <;> decide

theorem depthOf_pos {rs : List Rule} (h : rs ≠ []) : 0 < depthOf rs := by
  match rs, h with
  | node h cs :: rs, _ =>
      rw [depthOf, depth]
      exact lt_of_lt_of_le (Nat.succ_pos _) (Nat.le_max_left _ _)

mutual

/-- A rule opens a parenthesis on each of its levels but the last. -/
theorem passes_lexemes (annotate : Bool) : ∀ (r : Rule) {left : Nat},
    (∀ t ∈ r.walk, t.head.HasShape t.children.length) → r.depth ≤ left + 1 →
      Passes left (lexemes annotate r)
  | node h cs, left, hshape, hleft => by
      have hsuffix : Passes left (suffixLexemes annotate h) := by
        cases annotate with
        | false => exact passes_nil
        | true => exact annotation_passes h
      rw [lexemes]
      refine Passes.append ?_ hsuffix
      split
      · next ho =>
        -- the parentheses take one of the levels, and leave the rest to the rules between them
        have hcs : cs ≠ [] := by simpa using ((hshape _ (mem_walk_self _)).logical ho).2
        have hpos := depthOf_pos hcs
        rw [depth] at hleft
        obtain ⟨left, rfl⟩ : ∃ k, left = k + 1 := ⟨left - 1, by omega⟩
        have hbelow := passes_lexemesAll annotate cs (fun t ht => hshape t (by simp [walk, ht]))
          (Nat.le_of_succ_le_succ hleft)
        exact (passes_commaLexemes hbelow).between.cons_of_ne (by simp)
      · cases h.value with
        | none => exact passes_nil
        | some v => exact passes_comparison h v

theorem passes_lexemesAll (annotate : Bool) : ∀ (rs : List Rule) {left : Nat},
    (∀ t ∈ walkAll rs, t.head.HasShape t.children.length) → depthOf rs ≤ left + 1 →
      ∀ ls ∈ lexemesAll annotate rs, Passes left ls
  | [], left, _, _, ls, hls => by cases hls
  | r :: rs, left, hshape, hleft, ls, hls => by
      rw [depthOf] at hleft
      rw [lexemesAll] at hls
      rcases List.mem_cons.mp hls with rfl | hls
      · exact passes_lexemes annotate r (fun t ht => hshape t (by simp [walkAll, ht]))
          (le_trans (Nat.le_max_left _ _) hleft)
      · exact passes_lexemesAll annotate rs (fun t ht => hshape t (by simp [walkAll, ht]))
          (le_trans (Nat.le_max_right _ _) hleft) ls hls

end

end Levels

end Rule

section Numbers

theorem Number.same_plain {x : Number} (hx : x.isFinite = true) : x.same x.plain = true := by
  cases x with
  | nan m => cases hx
  | negInf => cases hx
  | posInf => cases hx
  | negZero => decide
  | finite q => simp [plain]

theorem Head.same_plain {h : Head} (hx : ∀ x ∈ h.numbers, x.isFinite = true) :
    h.same h.plain = true := by
  have hvalue : sameOption Operand.same h.value (h.value.map Operand.plain) = true := by
    cases hv : h.value with
    | none => rfl
    | some v =>
        cases v with
        | number x => exact Number.same_plain (hx x (mem_numbers_value hv))
        | text s => simp [sameOption, Operand.plain, Operand.same]
        | flag b => simp [sameOption, Operand.plain, Operand.same]
        | texts s => simp [sameOption, Operand.plain, Operand.same]
  have hconfidence :
      sameOption Number.same h.confidence (h.confidence.map Number.plain) = true := by
    cases hc : h.confidence with
    | none => rfl
    | some x => exact Number.same_plain (hx x (mem_numbers_confidence hc))
  simp [same, plain, hvalue, hconfidence]

theorem Head.isFinite_of_isConfidence {x : Number} (hx : isConfidence x = true) :
    x.isFinite = true := by
  cases x with
  | nan m => cases hx
  | negInf => cases hx
  | posInf => cases hx
  | negZero => rfl
  | finite q => rfl

theorem Head.HasDoubles.isDouble {h : Head} (hh : h.HasDoubles) {x : Number}
    (hx : x ∈ h.numbers) : x.IsDouble :=
  (mem_numbers.mp hx).elim (hh.confidence x) (hh.value x)

theorem Head.IsSound.isFinite {h : Head} {n : Nat} (hs : h.IsSound n) :
    ∀ x ∈ h.numbers, x.isFinite = true := by
  intro x hx
  rcases mem_numbers.mp hx with hx | hx
  · obtain ⟨y, hy, hrange⟩ := hs.confidence
    rw [hy] at hx
    obtain rfl := Option.some.inj hx
    exact isFinite_of_isConfidence hrange
  · have ho : h.operator.isLogical = false := by
      by_contra ho
      rw [(hs.logical (by simpa using ho)).1] at hx
      cases hx
    obtain ⟨-, v, hv, -, hfinite⟩ := hs.comparison ho
    rw [hx] at hv
    exact hfinite _ (Option.some.inj hv).symm

end Numbers

namespace Rule

section Trees

mutual

/-- A rule is the same when only zeros with a minus sign change. -/
theorem same_relabel_plain : ∀ (r : Rule) (id : Json),
    (∀ t ∈ r.walk, ∀ x ∈ t.head.numbers, x.isFinite = true) →
      same r (relabel (fun _ h => h.plain) id r) = true
  | node h cs, id, hx => by
      have hh : h.same h.plain = true := Head.same_plain (hx (node h cs) (mem_walk_self _))
      have hcs := sameAll_relabelAll_plain cs id 0 fun t ht => hx t (by simp [walk, ht])
      simp [relabel, same, hh, hcs]

theorem sameAll_relabelAll_plain : ∀ (rs : List Rule) (id : Json) (place : Nat),
    (∀ t ∈ walkAll rs, ∀ x ∈ t.head.numbers, x.isFinite = true) →
      sameAll rs (relabelAll (fun _ h => h.plain) id place rs) = true
  | [], _, _, _ => rfl
  | r :: rs, id, place, hx => by
      have hr := same_relabel_plain r (Parser.childId id place) fun t ht =>
        hx t (by simp [walkAll, ht])
      have hrs := sameAll_relabelAll_plain rs id (place + 1) fun t ht =>
        hx t (by simp [walkAll, ht])
      simp [relabelAll, sameAll, hr, hrs]

end

mutual

/-- A rule has a text when each rule in it has the shape for one. -/
theorem exists_printChars (annotate : Bool) : ∀ r : Rule,
    (∀ t ∈ r.walk, t.head.HasShape t.children.length) → ∃ t, printChars annotate r = some t
  | node h cs, hs => by
      have hself := hs (node h cs) (mem_walk_self _)
      cases ho : h.operator.isLogical with
      | true =>
          obtain ⟨ts, hts⟩ := exists_printAll annotate cs fun t ht => hs t (by simp [walk, ht])
          exact ⟨_, by rw [printChars, if_pos ho, hts, Option.map_some]⟩
      | false =>
          obtain ⟨-, v, hv⟩ := hself.comparison ho
          replace hv : h.value = some v := hv
          exact ⟨_, by rw [printChars, ho, if_neg Bool.false_ne_true, hv, Option.map_some]⟩

theorem exists_printAll (annotate : Bool) : ∀ rs : List Rule,
    (∀ t ∈ walkAll rs, t.head.HasShape t.children.length) → ∃ ts, printAll annotate rs = some ts
  | [], _ => ⟨[], rfl⟩
  | r :: rs, hs => by
      obtain ⟨t, ht⟩ := exists_printChars annotate r fun t ht => hs t (by simp [walkAll, ht])
      obtain ⟨ts, hts⟩ := exists_printAll annotate rs fun t ht => hs t (by simp [walkAll, ht])
      exact ⟨t :: ts, by simp [printAll, ht, hts]⟩

end

/-- The tokens of a rule's text are not too deep, and are read as the rule. -/
theorem parseWithin_of_printChars {annotate : Bool} {levels : Nat} {d : Defaults}
    {f : Json → Head → Head} {r : Rule} {t : List Char}
    (hr : ∀ s ∈ r.walk, Parser.IsRestored t.length d annotate f s) (hdepth : r.depth ≤ levels + 1)
    (ht : printChars annotate r = some t) :
    parseWithin levels d (String.ofList t) = .ok (relabel f d.id r) := by
  have hx : ∀ h ∈ r.heads, ∀ x ∈ h.numbers, HasNumeral false x := by
    rw [heads_eq_map_walk]
    intro h hh x hx
    obtain ⟨s, hs, rfl⟩ := List.mem_map.mp hh
    exact ((hr s hs).numbers x hx).hasNumeral
  obtain ⟨ts, hsplit, hts⟩ := exists_split_printChars hx ht
  have hdeep : tokensAbove? levels 0 ts = none := by
    have := passes_lexemes annotate r (fun s hs => (hr s hs).shape) hdepth ts [] 0 hts
    simpa [tokensAbove?] using this
  have hread := Parser.yields_expression r (2 * ts.length + 1) d.id [] hr
    (by rw [← hts, List.length_map]; omega) (by simp) ts (by rw [hts, List.append_nil])
  obtain ⟨us, hread, hus⟩ := hread
  obtain rfl := List.map_eq_nil_iff.mp hus
  simp [parseWithin, isTooDeep, parse, parseChars, hsplit, hdeep, hread, Except.mapError]

/-- A rule that its annotation gives back: it has a text, no blanks around its texts, a confidence,
and numbers that are read back. -/
structure IsPrintable (r : Rule) : Prop where
  shape : r.head.HasShape r.children.length
  trimmed : r.head.IsTrimmed
  confidence : r.head.confidence ≠ none
  numbers : ∀ x ∈ r.head.numbers, IsWritable x

/-- The annotated text of a rule is read as the same rule, with the zeros with a minus sign taken
for those without. -/
theorem parseWithin_of_print {levels : Nat} {r : Rule} {t : List Char} (d : Defaults)
    (hr : ∀ s ∈ r.walk, s.IsPrintable) (hdepth : r.depth ≤ levels + 1)
    (ht : printChars true r = some t) :
    parseWithin levels d (String.ofList t) = .ok (relabel (fun _ h => h.plain) d.id r) ∧
      same r (relabel (fun _ h => h.plain) d.id r) = true := by
  refine ⟨parseWithin_of_printChars (fun s hs => ?_) hdepth ht,
    same_relabel_plain r d.id fun s hs x hx => ((hr s hs).numbers x hx).finite⟩
  have hs := hr s hs
  exact ⟨hs.shape, hs.numbers, Parser.annotation_restores d t.length hs.trimmed hs.confidence
    fun x hx => hs.numbers x (Head.mem_numbers_confidence hx)⟩

/-- The annotated text of a rule of an accepted payload is read as the same rule, whatever is
assumed for rules without an annotation. -/
theorem exists_same_of_print {cfg : Settings} {payload : Json} {s : RuleSet} {r : Rule}
    (d : Defaults) (hx : payload.HasDoubles) (hs : RuleSet.parse cfg payload = .ok s)
    (hr : r ∈ walkAll s.rules) :
    ∃ text t, r.print true = some text ∧ parseWithin parenthesisLimit d text = .ok t ∧
      same r t = true := by
  obtain ⟨hpayload, haccepted⟩ := RuleSet.of_parse hs
  have hsub : ∀ t ∈ r.walk, t ∈ walkAll s.rules := (walkAll_sublist_of_mem s.rules hr).subset
  have hprintable : ∀ t ∈ r.walk, t.IsPrintable := by
    intro t ht
    have hs := haccepted.sound t (hsub t ht)
    have hdoubles := RuleSet.hasDoubles_of_ofPayload hpayload hx (hsub t ht)
    obtain ⟨x, hconfidence, -⟩ := hs.confidence
    exact ⟨hs.hasShape, (RuleSet.of_ofPayload hpayload (hsub t ht)).1, by simp [hconfidence],
      fun x hmem => ⟨hs.isFinite x hmem, hdoubles.isDouble hmem⟩⟩
  have hdepth := (RuleSet.of_ofPayload hpayload hr).2
  obtain ⟨text, htext⟩ := exists_printChars true r fun t ht => (hprintable t ht).shape
  exact ⟨String.ofList text, relabel (fun _ h => h.plain) d.id r, by simp [print, htext],
    parseWithin_of_print d hprintable (hdepth.trans (by decide)) htext⟩

/-- A rule whose texts need quotes: a variable between back quotes, and words of the language. -/
def quotedNegation : Rule :=
  .node { id := "r", subject := "not", operator := .not, clause := "c",
          confidence := some Number.one }
    [.node { id := "r \"0\"", subject := "`in`", operator := .gte,
             value := some (.number (.finite (5 / 2))), clause := "c",
             confidence := some (.finite (1 / 2)), group := some "true" } []]

def quotedPayload : Json :=
  .obj [("rules", .arr [quotedNegation.toJson])]

theorem exists_same_of_print_quotedNegation :
    quotedPayload.HasDoubles ∧
      RuleSet.parse .standard quotedPayload = .ok { rules := [quotedNegation] } ∧
      ∃ text t, quotedNegation.print true = some text ∧
        parseWithin parenthesisLimit {} text = .ok t ∧ same quotedNegation t = true := by
  have hdoubles : quotedPayload.HasDoubles := by decide +kernel
  have hread : RuleSet.ofPayload quotedPayload = .ok { rules := [quotedNegation] } := rfl
  have hfault : RuleSet.fault? .standard { rules := [quotedNegation] } = none := by decide +kernel
  have hparse : RuleSet.parse .standard quotedPayload = .ok { rules := [quotedNegation] } := by
    simp only [RuleSet.parse, hread, RuleSet.validate, hfault]
  exact ⟨hdoubles, hparse,
    exists_same_of_print {} hdoubles hparse (by simp [walkAll, mem_walk_self])⟩

end Trees

end Rule
end Eligibility
