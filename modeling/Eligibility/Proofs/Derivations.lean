import Eligibility.Proofs.Phrases
import Eligibility.Proofs.Reprinting
/-!
# Texts are read as the grammar has them

**Expressions.**  An expression is read from the tokens that run along the lexemes of a derivation,
as the rule that the derivation stands for, and from no others.  One direction follows the
derivation, the other one the bound on the steps, which is never reached: each step of reading
takes tokens, or is the first of two.

**Texts.**  A text is read as a rule exactly when its tokens have the lexemes of a derivation and
its quoted texts can be read, and its parentheses are not too deep.  Blanks around identifiers,
variables and clauses are dropped.

**Results.**
* `takes_expression`, `traced_expression`: expressions and derivations.
* `parseWithin_eq_ok_iff`: which texts are read as which rules, by one derivation each.
* `not_forall_subject_eq_name`: a variable loses the blanks around it.
-/

namespace Eligibility
namespace Rule
namespace Grammar

open Eligibility.Rule.Parser

variable {stop : Nat} {a : Assumption} {id' : String}

section Leaves

theorem subject?_of_lexeme {s : Subject} {u : Token} (hu : u.lexeme = s.lexeme) :
    subject? u = some s.name := by
  cases s with
  | ticked t =>
      obtain ⟨hkind, rfl⟩ := Prod.mk.inj hu
      simp [subject?, hkind, Subject.name]
  | word t ht =>
      obtain ⟨hkind, rfl⟩ := Prod.mk.inj hu
      simp [subject?, hkind, ht, Subject.name, shownText]

theorem exists_subject {u : Token} {name : String} (hu : subject? u = some name) :
    ∃ s : Subject, u.lexeme = s.lexeme ∧ s.name = name := by
  unfold subject? at hu
  split at hu
  · next hkind =>
    cases hu
    exact ⟨.ticked u.text, congrArg (·, u.text) hkind, rfl⟩
  · split at hu
    · next hword =>
      cases hu
      exact ⟨.word u.text hword.2, congrArg (·, u.text) hword.1, rfl⟩
    · cases hu

/-- A variable is no logical word. -/
theorem logicalStart?_of_subject? {u : Token} {name : String} (hu : subject? u = some name)
    (us : List Token) : logicalStart? (u :: us) = none := by
  cases us with
  | nil => rfl
  | cons v vs =>
      have hwords : ∀ p ∈ logicalWords, p.1 ∈ words := by decide
      simp only [logicalStart?, ite_eq_right_iff]
      rintro ⟨hkind, -⟩
      have hword : u.text ∉ words := by
        by_contra hmem
        simp [subject?, hkind, hmem] at hu
      rw [List.lookup_eq_none_iff]
      exact fun p hp => bne_iff_ne.mpr fun heq => hword (heq ▸ hwords p hp)

/-- A comparison is taken from its lexemes. -/
theorem takes_leaf (s : Subject) {o : Operator} (ho : o.isLogical = false) (v : Literal)
    (note : Note false) (id : String) (ts : List Token) :
    Takes (leaf stop (a.defaults id') (.str id)) (Derivation.comparison s o ho v note).lexemes
      ((Derivation.comparison s o ho v note).rule a id) [mark '{'] ts := by
  intro out h hout
  rw [Derivation.lexemes] at h
  obtain ⟨u, us, rfl, hu, hsigns⟩ := Runs.of_plain (by cases s <;> simp [Subject.lexeme]) h
  simp only [leaf, next, subject?_of_lexeme hu]
  rcases hsigns.of_append with ⟨m, rfl, hsign⟩ | ⟨vs, hsign, hvalues⟩
  · rw [takes_comparison ho us _ hsign (allows_nil _)]
    rfl
  rw [takes_comparison ho us _ hsign (allows_nil _)]
  simp only [outcome]
  rcases hvalues.of_append with ⟨m, rfl, hvalue⟩ | ⟨ws, hvalue, hnote⟩
  · rw [takes_literal v vs _ hvalue (allows_nil _)]
    rfl
  rw [takes_literal v vs _ hvalue (allows_nil _)]
  exact annotated_takes a id id' s.name o _ [] note ws out hnote hout

theorem traced_leaf (id : String) {ts : List Token} (hts : ∀ t ∈ ts, t.IsLexed) :
    Traced stop Derivation.lexemes (Derivation.rule a id) ts
      (leaf stop (a.defaults id') (.str id) ts) := by
  cases ts with
  | nil => exact .inl rfl
  | cons t r =>
      simp only [leaf, next]
      split
      · exact traced_refuse (by simp) _
      next name hname =>
        obtain ⟨s, hs, rfl⟩ := exists_subject hname
        have hr : ∀ u ∈ r, u.IsLexed := fun u hu => hts u (by simp [hu])
        have hfirst : Runs [s.lexeme] (t :: r) (.ok r) :=
          .plain hs (by cases s <;> simp [Subject.lexeme]) (.done r)
        have hsign := @traced_comparison stop r hr
        split
        · next e he =>
          rw [he] at hsign
          exact hsign.error_behind hfirst fun o =>
            ⟨.comparison s o.1 o.2 (.flag true) [], _, rfl⟩
        next o q hq =>
          rw [hq] at hsign
          obtain ⟨⟨o, ho⟩, rfl, hrun⟩ := hsign
          have hbefore := hfirst.append hrun
          have hq : ∀ u ∈ q, u.IsLexed := fun u hu => hr u (hrun.subset hu)
          have hvalue := @traced_literal stop q hq
          split
          · next e he =>
            rw [he] at hvalue
            exact hvalue.error_behind hbefore fun v => ⟨.comparison s o ho v [], [], rfl⟩
          next w u hu =>
            rw [hu] at hvalue
            obtain ⟨v, rfl, hrun'⟩ := hvalue
            exact (annotated_traced a id id' s.name o _ [] fun u hu =>
              hq u (hrun'.subset hu)).after (hbefore.append hrun') fun note =>
                ⟨.comparison s o ho v note, by simp [Derivation.lexemes], by rw [Derivation.rule]⟩

end Leaves

section Expressions

/-- The lexemes of one or more derivations, with commas between them. -/
def siblingLexemes (es : Derivation × List Derivation) : List Lexeme :=
  commaLexemes ((es.1 :: es.2).map Derivation.lexemes)

theorem siblingLexemes_cons (e f : Derivation) (fs : List Derivation) :
    siblingLexemes (e, f :: fs) = e.lexemes ++ mark ',' :: siblingLexemes (f, fs) := rfl

theorem lexemes_logical (o : Operator) (ho : o.isLogical = true) (first : Derivation)
    (more : List Derivation) (note : Note true) :
    (Derivation.logical o ho first more note).lexemes =
      (.word, o.name.toList) :: mark '(' ::
        (siblingLexemes (first, more) ++ mark ')' :: note.lexemes) := by
  rw [Derivation.lexemes, siblingLexemes, List.map_cons, Derivation.lexemesAll_eq_map]

/-- The rules that one or more derivations stand for, the first at a given place. -/
def siblingRules (a : Assumption) (id : String) (place : Nat)
    (es : Derivation × List Derivation) : List Rule :=
  Derivation.rulesAll a id place (es.1 :: es.2)

theorem childId_str (id : String) (place : Nat) :
    childId (.str id) place = .str (placeId id place) := rfl

/-- A rule with rules below it is taken from its lexemes if these are. -/
theorem takes_logical {o : Operator} (ho : o.isLogical = true) {first : Derivation}
    {more : List Derivation} (note : Note true) {fuel : Nat} {id : String} {ts : List Token}
    (hbelow : ∀ us : List Token, us.length < ts.length →
      Takes (siblings stop (a.defaults id') fuel (.str id) 0) (siblingLexemes (first, more))
        (siblingRules a id 0 (first, more)) [mark ',', mark '{'] us) :
    Takes (expression stop (a.defaults id') (fuel + 1) (.str id))
      (Derivation.logical o ho first more note).lexemes
      ((Derivation.logical o ho first more note).rule a id) [mark '{'] ts := by
  intro out h hout
  rw [lexemes_logical] at h
  obtain ⟨u, us, rfl, hu, hopen⟩ := Runs.of_plain (by simp) h
  obtain ⟨v, vs, rfl, hv, hinside⟩ := Runs.of_plain (by simp [mark]) hopen
  obtain ⟨hukind, hutext⟩ := Prod.mk.inj hu
  obtain ⟨-, hvtext⟩ := Prod.mk.inj hv
  have hstart := logicalStart?_eq_some ho hukind hutext hvtext vs
  have hread := hbelow vs (by simp)
  simp only [expression, List.isEmpty_cons, Bool.false_eq_true, if_false, hstart,
    List.drop_succ_cons, List.drop_zero]
  rcases hinside.of_append with ⟨m, rfl, hrules⟩ | ⟨ws, hrules, hclose⟩
  · rw [hread _ hrules (allows_error _ _)]
    rfl
  rw [hread _ hrules (hclose.allows (by decide))]
  obtain ⟨c, xs, rfl, hc, hnote⟩ := Runs.of_plain (by simp [mark]) hclose
  simp only [outcome, expect_mark hc]
  exact annotated_takes a id id' _ o none _ note xs out hnote hout

mutual

/-- An expression is taken from the lexemes of a derivation. -/
theorem takes_expression : ∀ (e : Derivation) {fuel : Nat} {id : String} {ts : List Token},
    2 * ts.length < fuel →
      Takes (expression stop (a.defaults id') fuel (.str id)) e.lexemes (e.rule a id) [mark '{'] ts
  | _, 0, _, _, hfuel => absurd hfuel (Nat.not_lt_zero _)
  | .comparison s o ho v note, fuel + 1, id, ts, hfuel => by
      intro out h hout
      have hread := @takes_leaf stop a id' s o ho v note id ts out h hout
      obtain ⟨u, us, rfl, hu, -⟩ := Runs.of_cons h
      simpa [expression, logicalStart?_of_subject? (subject?_of_lexeme hu)] using hread
  | .logical o ho first more note, fuel + 1, id, ts, hfuel =>
      takes_logical ho note fun us hus =>
        takes_siblings more first (fun h => takes_expression first h) (by omega)

/-- Expressions separated by commas are taken by induction on those behind the first one. -/
theorem takes_siblings : ∀ (more : List Derivation) (first : Derivation),
    (∀ {fuel : Nat} {id : String} {ts : List Token}, 2 * ts.length < fuel →
      Takes (expression stop (a.defaults id') fuel (.str id)) first.lexemes (first.rule a id)
        [mark '{'] ts) →
    ∀ {fuel : Nat} {id : String} {place : Nat} {ts : List Token}, 2 * ts.length + 1 < fuel →
      Takes (siblings stop (a.defaults id') fuel (.str id) place) (siblingLexemes (first, more))
        (siblingRules a id place (first, more)) [mark ',', mark '{'] ts
  | _, _, _, 0, _, _, _, hfuel => absurd hfuel (Nat.not_lt_zero _)
  | [], first, hfirst, fuel + 1, id, place, ts, hfuel => by
      intro out h hout
      have hread := @hfirst fuel (placeId id place) ts (by omega)
      rw [siblings, childId_str]
      cases out with
      | error m =>
          rw [hread _ h (allows_error _ _)]
          rfl
      | ok us =>
          have hat : atMark ',' us = false := hout.atMark_eq_false (by simp)
          rw [hread _ h fun vs hvs => (hout vs hvs).mono (by simp)]
          simp [outcome, hat, siblingRules, Derivation.rulesAll]
  | e :: es, first, hfirst, fuel + 1, id, place, ts, hfuel => by
      intro out h hout
      have hread := @hfirst fuel (placeId id place) ts (by omega)
      rw [siblingLexemes_cons] at h
      rw [siblings, childId_str]
      rcases h.of_append with ⟨m, rfl, hrule⟩ | ⟨us, hrule, hrest⟩
      · rw [hread _ hrule (allows_error _ _)]
        rfl
      rw [hread _ hrule (hrest.allows (by decide))]
      obtain ⟨c, vs, rfl, hc, hmore⟩ := Runs.of_plain (by simp [mark]) hrest
      have hlen := hrule.length_eq
      have hmany := @takes_siblings es e (fun h => takes_expression e h) fuel id (place + 1) vs
        (by simp only [List.length_cons] at hlen; omega) out hmore hout
      simp only [outcome, atMark_of_lexeme hc, if_true, List.tail_cons, hmany]
      cases out <;> rfl

end

theorem lexeme_of_logicalStart? {t u : Token} {r : List Token} {o : Operator}
    (h : logicalStart? (t :: u :: r) = some o) : t.lexeme = (.word, o.name.toList) := by
  simp only [logicalStart?, Option.ite_none_right_eq_some] at h
  obtain ⟨⟨hkind, -⟩, hlookup⟩ := h
  obtain ⟨l, m, hl, -⟩ := List.lookup_eq_some_iff.mp hlookup
  have hmem : (t.text, o) ∈ logicalWords := by simp [hl]
  have hname : ∀ p ∈ logicalWords, p.1 = p.2.name.toList := by decide
  rw [Token.lexeme, hkind, ← hname _ hmem]

mutual

/-- What is read as an expression comes from a derivation, by induction on the bound on the
steps. -/
theorem traced_expression : ∀ (fuel : Nat) (id : String) {ts : List Token},
    (∀ t ∈ ts, t.IsLexed) → Traced stop Derivation.lexemes (Derivation.rule a id) ts
      (expression stop (a.defaults id') fuel (.str id) ts)
  | 0, id, ts, _ => .inl rfl
  | fuel + 1, id, ts, hts => by
      rw [expression]
      split
      · exact .inl rfl
      split
      · exact traced_leaf id hts
      next o hstart =>
        obtain ⟨t, u, r, rfl, hkind, hu, ho, -⟩ := exists_of_logicalStart? hstart
        have hr : ∀ v ∈ r, v.IsLexed := fun v hv => hts v (by simp [hv])
        have hu := (hts u (by simp)).lexeme_of_mark (by decide) hu
        have hopen : Runs [(.word, o.name.toList), mark '('] (t :: u :: r) (.ok r) :=
          .plain (lexeme_of_logicalStart? hstart) (by simp) (.plain hu (by decide) (.done r))
        have hbelow := traced_siblings fuel id 0 hr
        rw [List.drop_succ_cons, List.drop_succ_cons, List.drop_zero]
        split
        · next e he =>
          rw [he] at hbelow
          exact hbelow.error_behind hopen fun es =>
            ⟨.logical o ho es.1 es.2 [], [mark ')'], by simp [lexemes_logical, Note.lexemes]⟩
        next cs q hcs =>
          rw [hcs] at hbelow
          obtain ⟨es, rfl, hrun⟩ := hbelow
          have hq : ∀ v ∈ q, v.IsLexed := fun v hv => hr v (hrun.subset hv)
          rcases @exists_of_expect stop [')'] q with ⟨c, vs, rfl, hc, h⟩ | ⟨c, n, h, hn⟩
          · have hc := (hq c (by simp)).lexeme_of_mark (by decide) hc
            have hclose : Runs [mark ')'] (c :: vs) (.ok vs) := .plain hc (by decide) (.done vs)
            rw [h]
            exact (annotated_traced a id id' _ o none _ fun v hv => hq v (by simp [hv])).after
              (hopen.append (hrun.append hclose)) fun note =>
                ⟨.logical o ho es.1 es.2 note, by simp [lexemes_logical], by
                  rw [Derivation.rule, siblingRules, Derivation.rulesAll]⟩
          · rw [h]
            exact place_mono (fun v hv => by simp [hrun.subset hv]) hn

theorem traced_siblings : ∀ (fuel : Nat) (id : String) (place : Nat) {ts : List Token},
    (∀ t ∈ ts, t.IsLexed) → Traced stop siblingLexemes (siblingRules a id place) ts
      (siblings stop (a.defaults id') fuel (.str id) place ts)
  | 0, id, place, ts, _ => .inl rfl
  | fuel + 1, id, place, ts, hts => by
      have hread := traced_expression fuel (placeId id place) hts
      rw [siblings, childId_str]
      split
      · next e he =>
        rw [he] at hread
        exact hread.of_error fun e => ⟨(e, []), [], (List.append_nil _).symm⟩
      next r q hr =>
        rw [hr] at hread
        obtain ⟨e, rfl, hrun⟩ := hread
        split
        · next hat =>
          obtain ⟨c, us, rfl, hc⟩ := exists_of_atMark hat
          have hcomma : Runs [mark ','] (c :: us) (.ok us) := .plain hc (by decide) (.done us)
          exact (traced_siblings fuel id (place + 1) fun t ht =>
            hts t (hrun.subset (List.mem_of_mem_tail ht))).behind (hrun.append hcomma) fun es =>
              ⟨(e, es.1 :: es.2), by simp [siblingLexemes_cons], rfl⟩
        · exact ⟨(e, []), rfl, hrun⟩

end

end Expressions

section Texts

variable {id : String} {text : String}

/-- Tokens run along lexemes to their end when they have them and can be read. -/
theorem runs_ok_nil_iff {ls : List Lexeme} {ts : List Token} :
    Runs ls ts (.ok []) ↔ ts.map Token.lexeme = ls ∧ ∀ t ∈ ts, t.misread? = none := by
  constructor
  · intro h
    obtain ⟨pre, rfl, rfl, hpre⟩ := h.eq_append
    simpa using hpre
  · rintro ⟨rfl, h⟩
    induction ts with
    | nil => exact .done []
    | cons t ts ih =>
        obtain ⟨ht, hts⟩ := List.forall_mem_cons.mp h
        exact .token ht (ih hts)

/-- What reading of a text makes of its tokens. -/
theorem parse_of_split {ts : List Token} (hts : Token.split text.toList = .ok ts) :
    parse (a.defaults id) text =
      match expression text.toList.length (a.defaults id) (2 * ts.length + 1) (.str id) ts with
      | .error e => .error e
      | .ok (r, []) => .ok r
      | .ok (_, t :: _) => refuse t .trailing := by
  rw [parse, parseChars, hts]
  rfl

/-- Reading of a text ends in the rule of a derivation along which its tokens run, in a misreading
into which they run, or in a refusal that gives a place in the text. -/
theorem parse_cases (a : Assumption) (id text : String) :
    (∃ (ts : List Token) (e : Derivation), Token.split text.toList = .ok ts ∧
      Runs e.lexemes ts (.ok []) ∧ parse (a.defaults id) text = .ok (e.rule a id)) ∨
    (∃ (ts : List Token) (e : Derivation) (m : Json.Misread), Token.split text.toList = .ok ts ∧
      Runs e.lexemes ts (.error m) ∧ parse (a.defaults id) text = .error (.misread m)) ∨
    ∃ c n, parse (a.defaults id) text = .error (.refused c n) ∧ n ≤ text.toList.length := by
  cases hts : Token.split text.toList with
  | error e =>
      refine .inr (.inr ⟨.strangeCharacter e.2, e.1, ?_, ?_⟩)
      · rw [parse, parseChars, hts]
      · exact (Token.position_lt_of_split_error hts).le
  | ok ts =>
      have hplace : ∀ t ∈ ts, t.position ≤ text.toList.length := fun t ht =>
        (Token.position_lt_of_split hts t ht).le
      have hread := @traced_expression text.toList.length a id (2 * ts.length + 1) id ts
        (Token.isLexed_of_split hts)
      rw [parse_of_split hts]
      cases hx : expression text.toList.length (a.defaults id) (2 * ts.length + 1) (.str id) ts with
      | ok read =>
          obtain ⟨r, us⟩ := read
          rw [hx] at hread
          obtain ⟨e, rfl, hrun⟩ := hread
          cases us with
          | nil => exact .inl ⟨ts, e, rfl, hrun, rfl⟩
          | cons t us => exact .inr (.inr ⟨_, _, rfl, hplace t (hrun.subset (by simp))⟩)
      | error fault =>
          rw [hx] at hread
          cases fault with
          | misread m =>
              obtain ⟨e, hrun⟩ := hread
              exact .inr (.inl ⟨ts, e, m, rfl, hrun, rfl⟩)
          | refused c n =>
              refine .inr (.inr ⟨c, n, rfl, ?_⟩)
              rcases hread with rfl | ⟨t, ht, rfl⟩
              · exact le_rfl
              · exact hplace t ht
          | flawed fs => cases hread

/-- A text is read as a rule where its tokens run along a derivation of it, and is misread where
they run into the misreading. -/
theorem parse_of_runs {ts : List Token} {e : Derivation} {out : Except Json.Misread (List Token)}
    (hts : Token.split text.toList = .ok ts) (hrun : Runs e.lexemes ts out)
    (hout : ∀ us, out = .ok us → us = []) :
    parse (a.defaults id) text =
      match out with
      | .ok _ => .ok (e.rule a id)
      | .error m => .error (.misread m) := by
  have hallows : Allows [mark '{'] out := fun us hus => by simp [hout us hus, Admits]
  rw [parse_of_split hts, takes_expression e (by omega) out hrun hallows]
  cases out with
  | error m => rfl
  | ok us =>
      obtain rfl := hout us rfl
      rfl

end Texts

section Levels

variable {left : Nat}

theorem passes_quotation (t : List Char) : Passes left (quotation t) :=
  passes_nil.cons_of_ne (by simp)

theorem Literal.passes (v : Literal) : Passes left v.lexemes := by
  cases v with
  | number t => exact passes_nil.cons_of_ne (by simp)
  | text t => exact passes_quotation t
  | flag b => exact passes_nil.cons_of_ne (by simp)
  | texts ts =>
      have hmembers : Passes left (commaLexemes (ts.map quotation)) :=
        passes_commaLexemes (List.forall_mem_map.mpr fun t _ => passes_quotation t)
      exact (hmembers.append (passes_nil.cons (by decide) (by decide))).cons (by decide) (by decide)

theorem Note.passes {logical : Bool} (note : Note logical) : Passes left note.lexemes := by
  have hpair : ∀ q : Pair logical, Passes left q.lexemes := fun q =>
    ((passes_nil.cons_of_ne (by cases q <;> simp [Pair.value])).cons (by decide)
      (by decide)).cons_of_ne (by simp)
  cases note with
  | nil => exact passes_nil
  | cons q qs =>
      have hpairs : Passes left (commaLexemes ((q :: qs).map Pair.lexemes)) :=
        passes_commaLexemes (List.forall_mem_map.mpr fun q _ => hpair q)
      exact (hpairs.append (passes_nil.cons (by decide) (by decide))).cons (by decide) (by decide)

theorem passes_signLexemes (o : Operator) : Passes left (signLexemes o) := by
  cases o <;> exact passes_of_forall (by decide)

mutual

/-- A derivation opens a parenthesis on each level of its rule but the last. -/
theorem Derivation.passes (a : Assumption) : ∀ (e : Derivation) {left : Nat} {id : String},
    (e.rule a id).depth ≤ left + 1 → Passes left e.lexemes
  | .comparison s o ho v note, left, id, _ => by
      have hsubject : s.lexeme.1 ≠ .mark := by cases s <;> simp [Subject.lexeme]
      exact ((passes_signLexemes o).append (v.passes.append note.passes)).cons_of_ne hsubject
  | .logical o ho first more note, left, id, hdepth => by
      -- the parentheses take one of the levels, and leave the rest to the rules between them
      rw [Derivation.rule, depth, depthOf] at hdepth
      have hpos : 0 < (first.rule a (placeId id 0)).depth := by
        cases first <;> rw [Derivation.rule, depth] <;> exact Nat.succ_pos _
      have hfirst := le_trans (Nat.le_max_left _ _) (Nat.le_of_succ_le_succ hdepth)
      have hmore := le_trans (Nat.le_max_right _ _) (Nat.le_of_succ_le_succ hdepth)
      obtain ⟨left, rfl⟩ : ∃ k, left = k + 1 := ⟨left - 1, by omega⟩
      have hbelow : ∀ e ∈ first :: more, Passes left e.lexemes := List.forall_mem_cons.mpr
        ⟨Derivation.passes a first hfirst, Derivation.passesAll a more hmore⟩
      rw [lexemes_logical]
      have hinside := (passes_commaLexemes (List.forall_mem_map.mpr hbelow)).between
      simpa [siblingLexemes] using (hinside.append note.passes).cons_of_ne (by simp)

theorem Derivation.passesAll (a : Assumption) : ∀ (es : List Derivation) {left place : Nat}
    {id : String}, depthOf (Derivation.rulesAll a id place es) ≤ left + 1 →
      ∀ e ∈ es, Passes left e.lexemes
  | [], _, _, _, _, _, he => by cases he
  | f :: fs, left, place, id, hdepth, e, he => by
      rw [Derivation.rulesAll, depthOf] at hdepth
      rcases List.mem_cons.mp he with he | he
      · exact he ▸ Derivation.passes a f (le_trans (Nat.le_max_left _ _) hdepth)
      · exact Derivation.passesAll a fs (le_trans (Nat.le_max_right _ _) hdepth) e he

end

end Levels

section Recognition

/-- Whether a token is not a quoted text, or stands for a text. -/
theorem misread?_eq_none_iff {t : Token} (ht : t.IsLexed) :
    t.misread? = none ↔ (t.kind = .quoted → ∃ s, Text.unquote t.text.tail = .ok (s, [])) := by
  unfold Token.misread?
  split
  · next hkind =>
    cases hs : Text.unquote t.text.tail with
    | error e => simp [hkind]
    | ok p =>
        obtain ⟨s, r⟩ := p
        obtain rfl := ht.unquote_eq_nil hkind hs
        simp
  · next hkind => simp [hkind]

theorem mapError_eq_ok {α ε ε' : Type} {x : Except ε α} {f : ε → ε'} {y : α} :
    x.mapError f = .ok y ↔ x = .ok y := by
  cases x <;> simp [Except.mapError]

theorem parse_of_parseWithin {levels : Nat} {d : Defaults} {text : String} {r : Rule}
    (h : parseWithin levels d text = .ok r) : parse d text = .ok r := by
  unfold parseWithin at h
  split at h
  · cases h
  · exact mapError_eq_ok.mp h

theorem parseWithin_of_parse {levels : Nat} {d : Defaults} {text : String} {ts : List Token}
    {r : Rule} (hts : Token.split text.toList = .ok ts) (hdeep : tokensAbove? levels 0 ts = none)
    (hparse : parse d text = .ok r) : parseWithin levels d text = .ok r := by
  have hshallow : ¬ isTooDeep levels d text = true := by simp [isTooDeep, hts, hdeep]
  rw [parseWithin, if_neg hshallow]
  exact mapError_eq_ok.mpr hparse

/-- A text is read as a rule exactly when its tokens have the lexemes of a derivation of the rule,
its quoted texts stand for texts, and the rule has no more levels than are allowed.  There is no
other derivation. -/
theorem parseWithin_eq_ok_iff (levels : Nat) (a : Assumption) (id text : String) (r : Rule) :
    Function.Injective Derivation.lexemes ∧
    (parseWithin levels (a.defaults id) text = .ok r ↔
      ∃ (ts : List Token) (e : Derivation), Token.split text.toList = .ok ts ∧
        (∀ t ∈ ts, t.kind = .quoted → ∃ s, Text.unquote t.text.tail = .ok (s, [])) ∧
        ts.map Token.lexeme = e.lexemes ∧ r = e.rule a id ∧ r.depth ≤ levels + 1) := by
  refine ⟨Derivation.lexemes_injective, fun h => ?_, ?_⟩
  · obtain ⟨-, -, -, hdepth⟩ := of_parseWithin h
    have hparse := parse_of_parseWithin h
    rcases parse_cases a id text with ⟨ts, e, hts, hrun, he⟩ | ⟨-, -, m, -, -, hm⟩ | ⟨c, n, hc, -⟩
    · obtain ⟨hlexemes, hread⟩ := runs_ok_nil_iff.mp hrun
      exact ⟨ts, e, hts, fun t ht => (misread?_eq_none_iff (Token.isLexed_of_split hts t ht)).mp
        (hread t ht), hlexemes, Except.ok.inj (hparse.symm.trans he), hdepth⟩
    · cases hparse.symm.trans hm
    · cases hparse.symm.trans hc
  · rintro ⟨ts, e, hts, hread, hlexemes, rfl, hdepth⟩
    have hrun : Runs e.lexemes ts (.ok []) := runs_ok_nil_iff.mpr ⟨hlexemes, fun t ht =>
      (misread?_eq_none_iff (Token.isLexed_of_split hts t ht)).mpr (hread t ht)⟩
    have hparse := @parse_of_runs a id text ts e _ hts hrun (by simp)
    have hdeep : tokensAbove? levels 0 ts = none := by
      simpa [tokensAbove?] using Derivation.passes a e hdepth ts [] 0 hlexemes
    exact parseWithin_of_parse hts hdeep hparse

/-- A comparison of a variable with blanks around it. -/
def spacedText : String := "` x ` == true"

/-- The variable of a rule is not always the one of its derivation. -/
theorem not_forall_subject_eq_name :
    ¬ ∀ (text : String) (ts : List Token) (s : Subject) (o : Operator) (ho : o.isLogical = false)
        (v : Literal) (r : Rule), Token.split text.toList = .ok ts →
          ts.map Token.lexeme = (Derivation.comparison s o ho v []).lexemes →
            parseWithin parenthesisLimit {} text = .ok r → r.head.subject = s.name := by
  intro h
  have hsplit : Token.split spacedText.toList = .ok [⟨.ticked, "` x `".toList, 0⟩,
      ⟨.sign, ['=', '='], 6⟩, ⟨.word, "true".toList, 9⟩] := by decide +kernel
  have hread : (parseWithin parenthesisLimit {} spacedText).toOption.map (·.head.subject) =
      some "x" := by decide +kernel
  obtain ⟨r, hr, hsubject⟩ := exists_of_map_toOption hread
  have := h spacedText _ (.ticked "` x `".toList) .eq rfl (.flag true) r hsplit rfl hr
  rw [hsubject] at this
  exact absurd this (by decide)

end Recognition

end Grammar
end Rule
end Eligibility
