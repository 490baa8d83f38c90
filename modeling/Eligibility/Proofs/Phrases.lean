import Eligibility.Proofs.Grammar
import Eligibility.Proofs.Spellings
/-!
# Phrases are read as the grammar has them

**Runs.**  Tokens run along the lexemes of a phrase until the phrase ends, or until one of them is
a quoted text that cannot be read.  What stands behind that one does not matter.

**Readers.**  A reader of phrases takes each phrase for its value, and ends in the misreading where
the tokens run into one.  Whatever it reads it takes from a phrase, whatever it misreads stands in
the beginning of one, and whatever it refuses is a token, or the end of the text.

**Results.**
* `takes_literal`, `takes_comparison`, `annotation_takes`: the parts of rules are taken from their
  lexemes.
* `traced_literal`, `traced_comparison`, `annotation_traced`: nothing else is taken for them.
-/

namespace Eligibility
namespace Rule

/-- Why a token cannot be read: it is a quoted text with something wrong between the quotes. -/
def Token.misread? (t : Token) : Option Json.Misread :=
  if t.kind = .quoted then
    match Text.unquote t.text.tail with
    | .ok _ => none
    | .error (q, n) => some (Json.locate t.text (.quoted q, n))
  else none

namespace Grammar

open Eligibility.Rule.Parser

section Running

/-- Tokens run along lexemes, up to their end, leaving other tokens, or up to the first token that
cannot be read. -/
inductive Runs : List Lexeme → List Token → Except Json.Misread (List Token) → Prop
  | done (us : List Token) : Runs [] us (.ok us)
  | token {t : Token} {ls : List Lexeme} {ts : List Token} {out : Except Json.Misread (List Token)}
      (ht : t.misread? = none) (h : Runs ls ts out) : Runs (t.lexeme :: ls) (t :: ts) out
  | flaw {t : Token} {m : Json.Misread} (ht : t.misread? = some m) (ls : List Lexeme)
      (ts : List Token) : Runs (t.lexeme :: ls) (t :: ts) (.error m)

variable {ls ms : List Lexeme} {ts us : List Token} {out : Except Json.Misread (List Token)}
  {m : Json.Misread}

theorem misread?_of_kind {t : Token} (h : t.kind ≠ .quoted) : t.misread? = none := if_neg h

theorem Runs.eq_of_nil (h : Runs [] ts out) : out = .ok ts := by
  cases h
  rfl

theorem Runs.of_cons {l : Lexeme} (h : Runs (l :: ls) ts out) :
    ∃ t us, ts = t :: us ∧ t.lexeme = l ∧
      (t.misread? = none ∧ Runs ls us out ∨ ∃ m, t.misread? = some m ∧ out = .error m) := by
  cases h with
  | token ht h => exact ⟨_, _, rfl, rfl, .inl ⟨ht, h⟩⟩
  | flaw ht => exact ⟨_, _, rfl, rfl, .inr ⟨_, ht, rfl⟩⟩

/-- A lexeme that is no quoted text is passed. -/
theorem Runs.of_plain {l : Lexeme} (hl : l.1 ≠ .quoted) (h : Runs (l :: ls) ts out) :
    ∃ t us, ts = t :: us ∧ t.lexeme = l ∧ Runs ls us out := by
  obtain ⟨t, us, rfl, rfl, ⟨-, h⟩ | ⟨m, ht, -⟩⟩ := h.of_cons
  · exact ⟨t, us, rfl, rfl, h⟩
  · rw [misread?_of_kind hl] at ht
    cases ht

theorem Runs.of_append (h : Runs (ls ++ ms) ts out) :
    (∃ m, out = .error m ∧ Runs ls ts (.error m)) ∨
      ∃ us, Runs ls ts (.ok us) ∧ Runs ms us out := by
  induction ls generalizing ts with
  | nil => exact .inr ⟨ts, .done ts, h⟩
  | cons l ls ih =>
      obtain ⟨t, us, rfl, rfl, ⟨ht, h⟩ | ⟨m, ht, rfl⟩⟩ := h.of_cons
      · exact (ih h).imp (fun ⟨m, hm, h⟩ => ⟨m, hm, .token ht h⟩)
          fun ⟨vs, h, h'⟩ => ⟨vs, .token ht h, h'⟩
      · exact .inl ⟨m, rfl, .flaw ht ls us⟩

theorem Runs.append (h : Runs ls ts (.ok us)) (h' : Runs ms us out) : Runs (ls ++ ms) ts out := by
  induction ls generalizing ts with
  | nil =>
      cases h
      exact h'
  | cons l ls ih =>
      obtain ⟨t, us, rfl, rfl, ⟨ht, h⟩ | ⟨m, -, hm⟩⟩ := h.of_cons
      · exact .token ht (ih h)
      · cases hm

theorem Runs.append_of_error (h : Runs ls ts (.error m)) (ms : List Lexeme) :
    Runs (ls ++ ms) ts (.error m) := by
  induction ls generalizing ts with
  | nil => cases h
  | cons l ls ih =>
      obtain ⟨t, us, rfl, rfl, ⟨ht, h⟩ | ⟨m, ht, hm⟩⟩ := h.of_cons
      · exact .token ht (ih h)
      · cases hm
        exact .flaw ht _ us

theorem Runs.plain {t : Token} {l : Lexeme} (ht : t.lexeme = l) (hl : l.1 ≠ .quoted)
    (h : Runs ls ts out) : Runs (l :: ls) (t :: ts) out := by
  subst ht
  exact .token (misread?_of_kind hl) h

/-- What is left of tokens is their end. -/
theorem Runs.eq_append (h : Runs ls ts (.ok us)) :
    ∃ pre, ts = pre ++ us ∧ pre.map Token.lexeme = ls ∧ ∀ t ∈ pre, t.misread? = none := by
  induction ls generalizing ts with
  | nil =>
      cases h
      exact ⟨[], rfl, rfl, List.forall_mem_nil _⟩
  | cons l ls ih =>
      obtain ⟨t, us, rfl, rfl, ⟨ht, h⟩ | ⟨m, -, hm⟩⟩ := h.of_cons
      · obtain ⟨pre, rfl, rfl, hpre⟩ := ih h
        exact ⟨t :: pre, rfl, rfl, List.forall_mem_cons.mpr ⟨ht, hpre⟩⟩
      · cases hm

theorem Runs.subset (h : Runs ls ts (.ok us)) : us ⊆ ts := by
  obtain ⟨pre, rfl, -⟩ := h.eq_append
  exact List.subset_append_right _ _

theorem Runs.length_eq (h : Runs ls ts (.ok us)) : ts.length = ls.length + us.length := by
  obtain ⟨pre, rfl, rfl, -⟩ := h.eq_append
  simp

end Running

section Readers

variable {α β χ : Type} {stop : Nat}

/-- What a reader gives for a phrase along which tokens run. -/
def outcome (a : α) : Except Json.Misread (List Token) → Parser.Step α
  | .ok us => .ok (a, us)
  | .error m => .error (.misread m)

/-- Whether the tokens that are left begin with none of some lexemes. -/
def Allows (bars : List Lexeme) (out : Except Json.Misread (List Token)) : Prop :=
  ∀ us, out = .ok us → Admits bars (us.map Token.lexeme)

/-- A reader takes the lexemes of a phrase for its value, where nothing follows that the phrase
could go on with. -/
def Takes (p : List Token → Parser.Step α) (ls : List Lexeme) (a : α) (bars : List Lexeme)
    (ts : List Token) : Prop :=
  ∀ out, Runs ls ts out → Allows bars out → p ts = outcome a out

/-- Whatever is read of some tokens comes from a phrase, and what is refused is one of them or the
end of the text. -/
def Traced (stop : Nat) (f : χ → List Lexeme) (g : χ → α) (ts : List Token) : Parser.Step α → Prop
  | .ok (a, us) => ∃ x, g x = a ∧ Runs (f x) ts (.ok us)
  | .error (.misread m) => ∃ x, Runs (f x) ts (.error m)
  | .error (.refused _ n) => n = stop ∨ ∃ t ∈ ts, n = t.position
  | .error (.flawed _) => False

variable {bars : List Lexeme} {ts us : List Token} {ls : List Lexeme} {f : χ → List Lexeme}
  {g : χ → α}

theorem allows_error (bars : List Lexeme) (m : Json.Misread) : Allows bars (.error m) := nofun

theorem allows_nil (out : Except Json.Misread (List Token)) : Allows [] out := by
  simp [Allows, Admits]

theorem Allows.atMark_eq_false {c : Char} (h : Allows bars (.ok us)) (hc : mark c ∈ bars) :
    atMark c us = false := by
  rw [atMark_eq, decide_eq_false_iff_not]
  exact fun hus => h us rfl _ hus hc

/-- What is left before a lexeme begins with it. -/
theorem Runs.allows {l : Lexeme} {out : Except Json.Misread (List Token)}
    (h : Runs (l :: ls) us out) (hl : l ∉ bars) : Allows bars (.ok us) := by
  obtain ⟨t, vs, rfl, rfl, -⟩ := h.of_cons
  rintro ws ⟨⟩
  exact Admits.cons hl _

theorem Runs.atMark_eq_false {c : Char} {l : Lexeme} {out : Except Json.Misread (List Token)}
    (h : Runs (l :: ls) ts out) (hl : l ≠ mark c) : atMark c ts = false := by
  obtain ⟨t, us, rfl, ht, -⟩ := h.of_cons
  rw [atMark_eq, decide_eq_false_iff_not]
  simpa [ht] using hl

theorem expect_of_lexeme {t : Token} {k : TokenClass} {w : List Char} (ht : t.lexeme = (k, w))
    (hk : k ≠ .quoted) (us : List Token) : expect stop w (t :: us) = .ok us := by
  obtain ⟨rfl, rfl⟩ := Prod.mk.inj ht
  exact expect_eq_ok.mpr ⟨t, rfl, rfl, hk⟩

theorem expect_mark {t : Token} {c : Char} (ht : t.lexeme = mark c) (us : List Token) :
    expect stop [c] (t :: us) = .ok us := expect_of_lexeme ht (by decide) us

/-- A place that is one of some tokens' is one of the places of all tokens that hold them. -/
theorem place_mono {n : Nat} (hsub : us ⊆ ts) (h : n = stop ∨ ∃ t ∈ us, n = t.position) :
    n = stop ∨ ∃ t ∈ ts, n = t.position :=
  h.imp_right (Exists.imp fun _ ht => ⟨hsub ht.1, ht.2⟩)

theorem traced_refuse {t : Token} (ht : t ∈ ts) (c : String → Complaint) :
    Traced stop f g ts (refuse t c) := .inr ⟨t, ht, rfl⟩

/-- Refusals behind a phrase are passed on, and so are misreadings, if each phrase there begins what
can follow. -/
theorem Traced.error_behind {ψ : Type} {f' : ψ → List Lexeme} {g' : ψ → β} {e : ParseFault}
    (h : Traced stop f g us (.error e)) (hrun : Runs ls ts (.ok us))
    (hf : ∀ x, ∃ y ms, f' y = ls ++ (f x ++ ms)) : Traced stop f' g' ts (.error e) := by
  cases e with
  | refused c n => exact place_mono hrun.subset h
  | flawed fs => exact h
  | misread m =>
      obtain ⟨x, hx⟩ := h
      obtain ⟨y, ms, hy⟩ := hf x
      exact ⟨y, hy ▸ hrun.append (hx.append_of_error ms)⟩

theorem Traced.of_error {ψ : Type} {f' : ψ → List Lexeme} {g' : ψ → β} {e : ParseFault}
    (h : Traced stop f g ts (.error e)) (hf : ∀ x, ∃ y ms, f' y = f x ++ ms) :
    Traced stop f' g' ts (.error e) := h.error_behind (.done ts) hf

/-- What is read behind a phrase that has been read belongs to one phrase with it. -/
theorem Traced.after {ψ : Type} {f' : ψ → List Lexeme} {g' : ψ → α} {x : Parser.Step α}
    (h : Traced stop f g us x) (hrun : Runs ls ts (.ok us))
    (hf : ∀ x, ∃ y, f' y = ls ++ f x ∧ g' y = g x) : Traced stop f' g' ts x := by
  match x, h with
  | .ok (a, vs), ⟨x, hx, h⟩ =>
      obtain ⟨y, hy, hvalue⟩ := hf x
      exact ⟨y, by rw [hvalue, hx], hy ▸ hrun.append h⟩
  | .error (.misread m), ⟨x, h⟩ =>
      obtain ⟨y, hy, -⟩ := hf x
      exact ⟨y, hy ▸ hrun.append h⟩
  | .error (.refused _ n), h => exact place_mono hrun.subset h

/-- The same with a value that is made of what is read. -/
theorem Traced.behind {ψ : Type} {f' : ψ → List Lexeme} {g' : ψ → β} {k : α → β}
    {x : Parser.Step α} (h : Traced stop f g us x) (hrun : Runs ls ts (.ok us))
    (hf : ∀ x, ∃ y, f' y = ls ++ f x ∧ g' y = k (g x)) :
    Traced stop f' g' ts (x.map fun p => (k p.1, p.2)) := by
  have hmap : Traced stop f (fun x => k (g x)) us (x.map fun p => (k p.1, p.2)) := by
    match x, h with
    | .ok (a, vs), ⟨x, hx, h⟩ => exact ⟨x, congrArg k hx, h⟩
    | .error (.misread m), h => exact h
    | .error (.refused _ n), h => exact h
  exact hmap.after hrun hf

/-- The text that is due comes, or what comes instead is refused. -/
theorem exists_of_expect (w : List Char) (ts : List Token) :
    (∃ t us, ts = t :: us ∧ t.text = w ∧ expect stop w ts = .ok us) ∨
      ∃ c n, expect stop w ts = .error (.refused c n) ∧ (n = stop ∨ ∃ t ∈ ts, n = t.position) := by
  cases ts with
  | nil => exact .inr ⟨_, _, rfl, .inl rfl⟩
  | cons t us =>
      simp only [expect, next]
      split
      · next h => exact .inl ⟨t, us, rfl, h.1, rfl⟩
      · exact .inr ⟨_, _, rfl, .inr ⟨t, by simp, rfl⟩⟩

/-- The mark at the end of a phrase comes, or what comes instead is refused. -/
theorem traced_expect {c : Char} (hc : c ∈ Token.marks) (hus : ∀ t ∈ us, t.IsLexed)
    (hrun : Runs ls ts (.ok us)) {x : χ} (hx : f x = ls ++ [mark c]) :
    Traced stop f g ts ((expect stop [c] us).map fun vs => (g x, vs)) := by
  rcases @exists_of_expect stop [c] us with ⟨t, vs, rfl, ht, h⟩ | ⟨d, n, h, hn⟩
  · have ht := (hus t (by simp)).lexeme_of_mark hc ht
    exact h ▸ ⟨x, rfl, hx ▸ hrun.append (.plain ht (by simp [mark]) (.done vs))⟩
  · exact h ▸ place_mono hrun.subset hn

end Readers

section Texts

variable {stop : Nat} {ts : List Token}

/-- A quoted text is read for what it stands for, or misread. -/
theorem unquoted_eq {t : Token} (ht : t.kind = .quoted) :
    unquoted t = match t.misread? with
      | none => .ok (textOf t.text)
      | some m => .error (.misread m) := by
  unfold unquoted Token.misread? textOf
  rw [if_pos ht]
  cases Text.unquote t.text.tail <;> rfl

theorem takes_quotedText (t : List Char) (ts : List Token) :
    Takes (quotedText stop) (quotation t) (textOf t) [] ts := by
  intro out h _
  obtain ⟨u, us, rfl, hu, hread⟩ := h.of_cons
  obtain ⟨hkind, rfl⟩ := Prod.mk.inj hu
  simp only [quotedText, next, hkind, if_true, unquoted_eq hkind]
  rcases hread with ⟨hnone, h⟩ | ⟨m, hsome, rfl⟩
  · rw [hnone, h.eq_of_nil]
    rfl
  · rw [hsome]
    rfl

/-- What is made of a quoted text comes from the phrase that is made of its characters. -/
theorem traced_unquoted {α χ : Type} {f : χ → List Lexeme} {g : χ → α} {k : String → α} {t : Token}
    (ht : t.kind = .quoted) {x : χ} (hf : f x = quotation t.text) (hg : g x = k (textOf t.text))
    (r : List Token) : Traced stop f g (t :: r) ((unquoted t).map fun s => (k s, r)) := by
  have hlexeme : [t.lexeme] = f x := by rw [hf, Token.lexeme, ht, quotation]
  rw [unquoted_eq ht]
  cases hm : t.misread? with
  | none => exact ⟨x, hg, hlexeme ▸ .token hm (.done r)⟩
  | some m => exact ⟨x, hlexeme ▸ .flaw hm [] r⟩

theorem traced_quotedText (ts : List Token) :
    Traced stop quotation textOf ts (quotedText stop ts) := by
  cases ts with
  | nil => exact .inl rfl
  | cons t r =>
      simp only [quotedText, next]
      split
      · next hkind => exact traced_unquoted (k := fun s => s) hkind rfl rfl r
      · exact traced_refuse (by simp) _

/-- Texts behind commas are taken by induction on them, where no comma follows. -/
theorem takes_moreTexts : ∀ (texts : List (List Char)) {fuel : Nat} {ts : List Token},
    ts.length ≤ fuel →
      Takes (moreTexts stop fuel) (behindCommas quotation texts) (texts.map textOf) [mark ','] ts
  | [], fuel, ts, _, out, h, hout => by
      obtain rfl := h.eq_of_nil
      have hat : atMark ',' ts = false := hout.atMark_eq_false (by simp)
      cases fuel <;> simp [moreTexts, hat, outcome]
  | t :: texts, fuel, ts, hlen, out, h, hout => by
      obtain ⟨c, us, rfl, hc, h⟩ := Runs.of_plain (by simp [mark]) h
      obtain ⟨fuel, rfl⟩ : ∃ k, fuel = k + 1 := ⟨fuel - 1, by simp at hlen; omega⟩
      have hat : atMark ',' (c :: us) = true := atMark_of_lexeme hc
      simp only [moreTexts, hat, if_true, List.tail_cons]
      rcases h.of_append with ⟨m, rfl, hfirst⟩ | ⟨vs, hfirst, hrest⟩
      · rw [takes_quotedText t us _ hfirst (allows_nil _)]
        rfl
      · have hvs : vs.length ≤ fuel := by
          have := hfirst.length_eq
          simp only [List.length_cons] at hlen
          omega
        rw [takes_quotedText t us _ hfirst (allows_nil _)]
        simp only [outcome]
        rw [takes_moreTexts texts hvs out hrest hout]
        cases out <;> rfl

theorem traced_moreTexts : ∀ (fuel : Nat) (ts : List Token),
    Traced stop (behindCommas quotation) (List.map textOf) ts (moreTexts stop fuel ts)
  | 0, ts => ⟨[], rfl, .done ts⟩
  | fuel + 1, ts => by
      rw [moreTexts]
      split
      · next hat =>
        obtain ⟨c, r, rfl, hc⟩ := exists_of_atMark hat
        have hcomma : Runs [mark ','] (c :: r) (.ok r) := .plain hc (by simp [mark]) (.done r)
        have hread := @traced_quotedText stop r
        rw [List.tail_cons]
        split
        · next e he =>
          rw [he] at hread
          exact hread.behind (k := fun s => [s]) hcomma fun t => ⟨[t], by simp [behindCommas], rfl⟩
        · next s q hs =>
          rw [hs] at hread
          obtain ⟨t, rfl, hrun⟩ := hread
          exact (traced_moreTexts fuel q).behind (hcomma.append hrun) fun texts =>
            ⟨t :: texts, by simp [behindCommas], rfl⟩
      · exact ⟨[], rfl, .done ts⟩

/-- Texts between brackets, behind the opening one, as a phrase. -/
def bracketed (texts : List (List Char)) : List Lexeme :=
  commaLexemes (texts.map quotation) ++ [mark ']']

theorem takes_textList (texts : List (List Char)) (ts : List Token) :
    Takes (textList stop) (bracketed texts) (texts.map textOf) [] ts := by
  intro out h _
  cases texts with
  | nil =>
      obtain ⟨c, us, rfl, hc, h⟩ := Runs.of_plain (by simp [mark]) h
      obtain rfl := h.eq_of_nil
      simp [textList, atMark_of_lexeme hc, outcome]
  | cons t texts =>
      rw [bracketed, commaLexemes_map_cons, List.append_assoc] at h
      have hat : atMark ']' ts = false := h.atMark_eq_false (by simp [mark])
      simp only [textList, hat, Bool.false_eq_true, if_false]
      rcases h.of_append with ⟨m, rfl, hfirst⟩ | ⟨us, hfirst, hrest⟩
      · rw [takes_quotedText t ts _ hfirst (allows_nil _)]
        rfl
      rw [takes_quotedText t ts _ hfirst (allows_nil _)]
      simp only [outcome]
      rcases hrest.of_append with ⟨m, rfl, hmore⟩ | ⟨vs, hmore, hlast⟩
      · rw [takes_moreTexts texts le_rfl _ hmore (allows_error _ _)]
        rfl
      rw [takes_moreTexts texts le_rfl _ hmore (hlast.allows (by decide))]
      obtain ⟨c, ws, rfl, hc, hlast⟩ := Runs.of_plain (by simp [mark]) hlast
      obtain rfl := hlast.eq_of_nil
      simp [outcome, expect_mark hc]

theorem traced_textList {ts : List Token} (hts : ∀ t ∈ ts, t.IsLexed) :
    Traced stop bracketed (List.map textOf) ts (textList stop ts) := by
  unfold textList
  split
  · next hat =>
    obtain ⟨c, r, rfl, hc⟩ := exists_of_atMark hat
    exact ⟨[], rfl, .plain hc (by simp [mark]) (.done r)⟩
  have hread := @traced_quotedText stop ts
  split
  · next e he =>
    rw [he] at hread
    exact hread.of_error fun t => ⟨[t], [mark ']'], rfl⟩
  next s r hs =>
    rw [hs] at hread
    obtain ⟨t, rfl, hrun⟩ := hread
    have hbracketed : ∀ texts, bracketed (t :: texts) =
        quotation t ++ (behindCommas quotation texts ++ [mark ']']) := fun texts => by
      rw [bracketed, commaLexemes_map_cons, List.append_assoc]
    have hmore := @traced_moreTexts stop r.length r
    split
    · next e he =>
      rw [he] at hmore
      exact hmore.error_behind hrun fun texts => ⟨t :: texts, _, hbracketed texts⟩
    next ss q hss =>
      rw [hss] at hmore
      obtain ⟨texts, rfl, hrest⟩ := hmore
      exact traced_expect (x := t :: texts) (by decide)
        (fun u hu => hts u (hrun.subset (hrest.subset hu))) (hrun.append hrest)
        (by rw [hbracketed, List.append_assoc])

end Texts

section Comparisons

variable {stop : Nat} {ts : List Token}

/-- A literal is taken from its lexemes. -/
theorem takes_literal (v : Literal) (ts : List Token) :
    Takes (literal stop) v.lexemes v.operand [] ts := by
  intro out h _
  cases v with
  | number t =>
      obtain ⟨u, us, rfl, hu, hrest⟩ := Runs.of_plain (by simp) h
      obtain ⟨hkind, rfl⟩ := Prod.mk.inj hu
      obtain rfl := hrest.eq_of_nil
      simp [literal, next, hkind, outcome, Literal.operand, numberOf, numeral]
  | text t =>
      obtain ⟨u, us, rfl, hu, hread⟩ := h.of_cons
      obtain ⟨hkind, rfl⟩ := Prod.mk.inj hu
      rcases hread with ⟨hnone, hrest⟩ | ⟨m, hsome, rfl⟩
      · obtain rfl := hrest.eq_of_nil
        simp [literal, next, hkind, unquoted_eq, hnone, outcome, Literal.operand]
      · simp [literal, next, hkind, unquoted_eq, hsome, outcome]
  | flag b =>
      obtain ⟨u, us, rfl, hu, hrest⟩ := Runs.of_plain (by simp) h
      obtain ⟨hkind, htext⟩ := Prod.mk.inj hu
      obtain rfl := hrest.eq_of_nil
      cases b <;>
        simp [literal, next, hkind, htext, Operand.flagText, outcome, Literal.operand]
  | texts texts =>
      obtain ⟨u, us, rfl, hu, hrest⟩ := Runs.of_plain (by simp [mark]) h
      obtain ⟨hkind, htext⟩ := Prod.mk.inj hu
      have hread := @takes_textList stop texts us out hrest (allows_nil _)
      cases out <;> simp [literal, next, hkind, htext, hread, outcome, Literal.operand]

theorem traced_literal (hts : ∀ t ∈ ts, t.IsLexed) :
    Traced stop Literal.lexemes Literal.operand ts (literal stop ts) := by
  cases ts with
  | nil => exact .inl rfl
  | cons t r =>
      have hplain : ∀ {k : TokenClass} {w : List Char}, t.kind = k → t.text = w → k ≠ .quoted →
          Runs [(k, w)] (t :: r) (.ok r) := fun hkind htext hk =>
        .plain (by rw [Token.lexeme, hkind, htext]) hk (.done r)
      simp only [literal, next]
      split
      · next hkind => exact ⟨.number t.text, rfl, hplain hkind rfl (by decide)⟩
      split
      · next hkind =>
        exact traced_unquoted (x := Literal.text t.text) (k := Operand.text) hkind rfl rfl r
      split
      · next htrue => exact ⟨.flag true, rfl, hplain htrue.1 htrue.2 (by decide)⟩
      split
      · next hfalse => exact ⟨.flag false, rfl, hplain hfalse.1 hfalse.2 (by decide)⟩
      split
      · next hlist =>
        have ht := (hts t (by simp)).lexeme_of_mark (by decide) hlist
        have hopen : Runs [mark '['] (t :: r) (.ok r) := .plain ht (by decide) (.done r)
        exact (traced_textList fun u hu => hts u (by simp [hu])).behind
          (k := fun ss => Operand.texts (TextSet.ofList ss)) hopen fun texts =>
            ⟨.texts texts, rfl, rfl⟩
      · exact traced_refuse (by simp) _

theorem signLexemes_of_lookup {cs : List Char} {o : Operator} (h : signs.lookup cs = some o) :
    o.isLogical = false ∧ signLexemes o = [(.sign, cs)] := by
  obtain ⟨l, r, hl, -⟩ := List.lookup_eq_some_iff.mp h
  have hmem : (cs, o) ∈ signs := by simp [hl]
  exact (by decide : ∀ p ∈ signs, p.2.isLogical = false ∧ signLexemes p.2 = [(.sign, p.1)]) _ hmem

/-- A comparison sign is taken from its lexemes. -/
theorem takes_comparison {o : Operator} (ho : o.isLogical = false) (ts : List Token) :
    Takes (comparison stop) (signLexemes o) o [] ts := by
  have hsign : ∀ t p, signs.lookup t = some p → Takes (comparison stop) [(.sign, t)] p [] ts := by
    intro t p hp out h _
    obtain ⟨u, us, rfl, hu, hrest⟩ := Runs.of_plain (by simp) h
    obtain ⟨hkind, rfl⟩ := Prod.mk.inj hu
    obtain rfl := hrest.eq_of_nil
    simp [comparison, next, hkind, hp, outcome]
  cases o with
  | and => cases ho
  | or => cases ho
  | not => cases ho
  | isIn =>
      intro out h _
      obtain ⟨u, us, rfl, hu, hrest⟩ := Runs.of_plain (by simp) h
      obtain ⟨hkind, htext⟩ := Prod.mk.inj hu
      obtain rfl := hrest.eq_of_nil
      simp [comparison, next, hkind, htext, outcome]
  | notIn =>
      intro out h _
      obtain ⟨u, us, rfl, hu, hrest⟩ := Runs.of_plain (by simp) h
      obtain ⟨hkind, htext⟩ := Prod.mk.inj hu
      obtain ⟨v, vs, rfl, hv, hlast⟩ := Runs.of_plain (by simp) hrest
      obtain rfl := hlast.eq_of_nil
      have hin : expect stop ['i', 'n'] (v :: vs) = .ok vs := expect_of_lexeme hv (by decide) vs
      simp [comparison, next, hkind, htext, hin, outcome]
  | _ => exact hsign _ _ rfl

theorem traced_comparison (hts : ∀ t ∈ ts, t.IsLexed) :
    Traced stop (fun o : { o : Operator // o.isLogical = false } => signLexemes o) Subtype.val ts
      (comparison stop ts) := by
  cases ts with
  | nil => exact .inl rfl
  | cons t r =>
      simp only [comparison, next]
      split
      · next o ho =>
        obtain ⟨hkind, hlookup⟩ := Option.ite_none_right_eq_some.mp ho
        obtain ⟨hlogical, hlexemes⟩ := signLexemes_of_lookup hlookup
        have hrun : Runs (signLexemes o) (t :: r) (.ok r) := by
          rw [hlexemes]
          exact .plain (by rw [Token.lexeme, hkind]) (by simp) (.done r)
        exact ⟨⟨o, hlogical⟩, rfl, hrun⟩
      split
      · next hin =>
        exact ⟨⟨.isIn, rfl⟩, rfl, .plain (by rw [Token.lexeme, hin.1, hin.2]) (by decide) (.done r)⟩
      split
      · next hnot =>
        rcases @exists_of_expect stop "in".toList r with ⟨u, us, rfl, hu, h⟩ | ⟨c, n, h, hn⟩
        · have hu := (hts u (by simp)).lexeme_of_in hu
          rw [h]
          exact ⟨⟨.notIn, rfl⟩, rfl, .plain (by rw [Token.lexeme, hnot.1, hnot.2]) (by decide)
            (.plain hu (by decide) (.done us))⟩
        · rw [h]
          exact place_mono (List.subset_cons_self t r) hn
      · exact traced_refuse (by simp) _

end Comparisons

section Annotations

variable {stop : Nat} {logical : Bool} {ts : List Token}

/-- An annotation with a pair set. -/
def Pair.put (a : Annotation) : Pair logical → Annotation
  | text k _ t => a.set k (textOf t)
  | confidence t => { a with confidence := some (numeral t) }

/-- What the pairs of an annotation say, one after the other. -/
def Note.summary (note : Note logical) : Annotation := note.foldl Pair.put {}

/-- The keys with texts are those that are allowed, without the one that has a number. -/
theorem mem_textKeys {k : String} (hk : k ∈ keys) (hne : k ≠ "confidence")
    (hvar : ¬ (k = "var" ∧ logical = false)) : k ∈ textKeys logical := by
  simp only [keys, List.mem_cons, List.not_mem_nil, or_false] at hk
  rcases hk with rfl | rfl | rfl | rfl | rfl <;> cases logical <;> simp_all [textKeys]

theorem of_mem_textKeys {k : String} (hk : k ∈ textKeys logical) :
    k ∈ keys ∧ k ≠ "confidence" ∧ ¬ (k = "var" ∧ logical = false) := by
  cases logical <;> simp only [textKeys, if_true, Bool.false_eq_true, if_false, List.mem_cons,
    List.not_mem_nil, or_false] at hk
  · rcases hk with rfl | rfl | rfl <;> simp [keys]
  · rcases hk with rfl | rfl | rfl | rfl <;> simp [keys]

/-- A pair of an annotation is taken from its lexemes. -/
theorem takes_pair (q : Pair logical) (a : Annotation) (ts : List Token) :
    Takes (pair stop logical a) q.lexemes (q.put a) [] ts := by
  intro out h _
  obtain ⟨u, us, rfl, hu, hrest⟩ := Runs.of_plain (by simp) h
  obtain ⟨hkind, htext⟩ := Prod.mk.inj hu
  obtain ⟨e, vs, rfl, he, hlast⟩ := Runs.of_plain (by simp [mark]) hrest
  obtain ⟨v, ws, rfl, hv, hread⟩ := hlast.of_cons
  have hkey : shownText u = q.key := by simp [shownText, htext]
  cases q with
  | text k hk t =>
      obtain ⟨hkeys, hne, hvar⟩ := of_mem_textKeys hk
      obtain ⟨hvkind, rfl⟩ := Prod.mk.inj hv
      rw [Pair.key] at hkey
      rcases hread with ⟨hnone, hrest⟩ | ⟨m, hsome, rfl⟩
      · obtain rfl := hrest.eq_of_nil
        simp [pair, next, hkind, hkey, hkeys, hvar, expect_mark he, value, hne, hvkind,
          unquoted_eq, hnone, outcome, Pair.put]
      · simp [pair, next, hkind, hkey, hkeys, hvar, expect_mark he, value, hne, hvkind,
          unquoted_eq, hsome, outcome]
  | confidence t =>
      obtain ⟨hvkind, rfl⟩ := Prod.mk.inj hv
      rw [Pair.key] at hkey
      rcases hread with ⟨-, hrest⟩ | ⟨m, hsome, -⟩
      · obtain rfl := hrest.eq_of_nil
        simp [pair, next, hkind, hkey, keys, expect_mark he, value, hvkind, outcome, Pair.put,
          numberOf, numeral]
      · rw [misread?_of_kind (by simp [hvkind])] at hsome
        cases hsome

/-- The value of a key comes from the pair that it makes up with the key. -/
theorem traced_value {key : String} (a : Annotation) (hk : key ∈ keys)
    (hvar : ¬ (key = "var" ∧ logical = false)) (ts : List Token) :
    Traced stop (fun q : { q : Pair logical // q.key = key } => [q.1.value])
      (fun q => q.1.put a) ts (value stop key a ts) := by
  cases ts with
  | nil => exact .inl rfl
  | cons t r =>
      simp only [value, next]
      split
      · next hkey =>
        split
        · next hkind =>
          exact ⟨⟨.confidence t.text, hkey.symm⟩, rfl,
            .plain (by rw [Token.lexeme, hkind, Pair.value]) (by simp [Pair.value]) (.done r)⟩
        · exact traced_refuse (by simp) _
      · next hkey =>
        split
        · next hkind =>
          exact traced_unquoted (x := ⟨.text key (mem_textKeys hk hkey hvar) t.text, rfl⟩)
            (k := fun s => a.set key s) hkind rfl rfl r
        · exact traced_refuse (by simp) _

theorem traced_pair (a : Annotation) (hts : ∀ t ∈ ts, t.IsLexed) :
    Traced stop (@Pair.lexemes logical) (Pair.put a) ts (pair stop logical a ts) := by
  cases ts with
  | nil => exact .inl rfl
  | cons t r =>
      simp only [pair, next]
      split
      · exact traced_refuse (by simp) _
      next hkey =>
        split
        · exact traced_refuse (by simp) _
        next hvar =>
          obtain ⟨hkind, hkeys⟩ : t.kind = .word ∧ shownText t ∈ keys := by
            simpa [not_or] using hkey
          have ht : t.lexeme = (.word, (shownText t).toList) := by
            simp [Token.lexeme, hkind, shownText]
          rcases @exists_of_expect stop ['='] r with ⟨e, us, rfl, he, h⟩ | ⟨c, n, h, hn⟩
          · have he := (hts e (by simp)).lexeme_of_mark (by decide) he
            have hrun : Runs [(.word, (shownText t).toList), mark '='] (t :: e :: us) (.ok us) :=
              .plain ht (by simp) (.plain he (by decide) (.done us))
            rw [h]
            refine (traced_value a hkeys hvar us).after hrun fun q => ⟨q.1, ?_, rfl⟩
            rw [Pair.lexemes, q.2]
            rfl
          · rw [h]
            exact place_mono (List.subset_cons_self t r) hn

/-- Pairs behind the opening brace, up to the closing one. -/
def braced (qs : Pair logical × List (Pair logical)) : List Lexeme :=
  commaLexemes ((qs.1 :: qs.2).map Pair.lexemes) ++ [mark '}']

theorem braced_eq (q : Pair logical) (qs : List (Pair logical)) :
    braced (q, qs) = q.lexemes ++ (behindCommas Pair.lexemes qs ++ [mark '}']) := by
  rw [braced, commaLexemes_map_cons, List.append_assoc]

theorem braced_cons (q r : Pair logical) (qs : List (Pair logical)) :
    braced (q, r :: qs) = q.lexemes ++ mark ',' :: braced (r, qs) := by
  simp [braced_eq, behindCommas]

/-- The pairs of an annotation are taken by induction on them. -/
theorem takes_pairs : ∀ (qs : List (Pair logical)) (q : Pair logical) {fuel : Nat} (a : Annotation)
    {ts : List Token}, ts.length ≤ fuel →
      Takes (pairs stop logical fuel a) (braced (q, qs)) ((q :: qs).foldl Pair.put a) [] ts
  | qs, q, 0, a, ts, hlen, out, h, _ => by
      obtain rfl := List.length_eq_zero_iff.mp (Nat.le_zero.mp hlen)
      rw [braced_eq] at h
      obtain ⟨u, us, hnil, -⟩ := Runs.of_plain (by simp) h
      cases hnil
  | [], q, fuel + 1, a, ts, hlen, out, h, _ => by
      rw [braced_eq] at h
      rw [pairs]
      rcases h.of_append with ⟨m, rfl, hfirst⟩ | ⟨us, hfirst, hrest⟩
      · rw [takes_pair q a ts _ hfirst (allows_nil _)]
        rfl
      rw [takes_pair q a ts _ hfirst (allows_nil _)]
      have hat : atMark ',' us = false := hrest.atMark_eq_false (by simp [mark])
      obtain ⟨c, vs, rfl, hc, hlast⟩ := Runs.of_plain (by simp [mark]) hrest
      obtain rfl := hlast.eq_of_nil
      simp [outcome, hat, expect_mark hc]
  | r :: qs, q, fuel + 1, a, ts, hlen, out, h, hout => by
      rw [braced_cons] at h
      rw [pairs]
      rcases h.of_append with ⟨m, rfl, hfirst⟩ | ⟨us, hfirst, hrest⟩
      · rw [takes_pair q a ts _ hfirst (allows_nil _)]
        rfl
      rw [takes_pair q a ts _ hfirst (allows_nil _)]
      obtain ⟨c, vs, rfl, hc, hlast⟩ := Runs.of_plain (by simp [mark]) hrest
      have hvs : vs.length ≤ fuel := by
        have := hfirst.length_eq
        simp only [List.length_cons] at this
        omega
      simp only [outcome, atMark_of_lexeme hc, if_true, List.tail_cons]
      exact takes_pairs qs r (q.put a) hvs out hlast hout

theorem traced_pairs : ∀ (fuel : Nat) (a : Annotation) {ts : List Token},
    (∀ t ∈ ts, t.IsLexed) → ts.length < fuel →
      Traced stop (@braced logical) (fun qs => (qs.1 :: qs.2).foldl Pair.put a) ts
        (pairs stop logical fuel a ts)
  | 0, a, ts, _, hlen => absurd hlen (Nat.not_lt_zero _)
  | fuel + 1, a, ts, hts, hlen => by
      have hpair := @traced_pair stop logical ts a hts
      rw [pairs]
      split
      · next e he =>
        rw [he] at hpair
        exact hpair.of_error fun q => ⟨(q, []), [mark '}'], rfl⟩
      next b r hb =>
        rw [hb] at hpair
        obtain ⟨q, rfl, hrun⟩ := hpair
        have hr : ∀ t ∈ r, t.IsLexed := fun t ht => hts t (hrun.subset ht)
        split
        · next hat =>
          obtain ⟨c, r, rfl, hc⟩ := exists_of_atMark hat
          have hcomma : Runs [mark ','] (c :: r) (.ok r) := .plain hc (by decide) (.done r)
          have hlen : r.length < fuel := by
            have := hrun.length_eq
            simp only [List.length_cons] at this
            omega
          exact (traced_pairs fuel (q.put a) (fun t ht => hr t (by simp [ht])) hlen).after
            (hrun.append hcomma) fun qs => ⟨(q, qs.1 :: qs.2), by simp [braced_cons], rfl⟩
        · exact traced_expect (x := (q, [])) (by decide) hr hrun rfl

/-- An annotation, or none, is taken from its lexemes. -/
theorem annotation_takes (note : Note logical) (ts : List Token) :
    Takes ( annotation? stop logical) note.lexemes note.summary [mark '{'] ts := by
  intro out h hout
  cases note with
  | nil =>
      obtain rfl := h.eq_of_nil
      have hat : atMark '{' ts = false := hout.atMark_eq_false (by simp)
      simp [ annotation?, hat, outcome, Note.summary]
  | cons q qs =>
      obtain ⟨c, us, rfl, hc, hrest⟩ := Runs.of_plain (by simp [mark]) h
      rw [ annotation?, if_pos (atMark_of_lexeme hc)]
      exact takes_pairs qs q {} (by simp; omega) out hrest (allows_nil _)

theorem annotation_traced (hts : ∀ t ∈ ts, t.IsLexed) :
    Traced stop (@Note.lexemes logical) Note.summary ts ( annotation? stop logical ts) := by
  unfold annotation?
  split
  · next hat =>
    obtain ⟨c, r, rfl, hc⟩ := exists_of_atMark hat
    have hbrace : Runs [mark '{'] (c :: r) (.ok r) := .plain hc (by decide) (.done r)
    have hr : ∀ t ∈ r, t.IsLexed := fun t ht => hts t (by simp [ht])
    exact (traced_pairs _ {} hr (by simp)).after hbrace fun qs => ⟨qs.1 :: qs.2, rfl, rfl⟩
  · exact ⟨[], rfl, .done ts⟩

theorem put_eq (a : Annotation) (q : Pair logical) :
    q.put a = ⟨(q.said? "id").or a.id, (q.said? "var").or a.subject, (q.said? "clause").or a.clause,
      q.stated?.or a.confidence, (q.said? "group").or a.group⟩ := by
  cases q with
  | confidence t => rfl
  | text k hk t =>
      have hk : k = "id" ∨ k = "var" ∨ k = "clause" ∨ k = "group" := by
        cases logical <;> simp [textKeys] at hk <;> tauto
      rcases hk with rfl | rfl | rfl | rfl <;>
        simp [Pair.put, Annotation.set, Pair.said?, Pair.stated?]

theorem getLast?_filterMap_append {α β : Type} (f : α → Option β) (xs : List α) (x : α) :
    ((xs ++ [x]).filterMap f).getLast? = (f x).or (xs.filterMap f).getLast? := by
  rw [List.filterMap_append]
  cases hx : f x <;> simp [hx]

/-- What an annotation says in the end is what it says last for each key. -/
theorem summary_eq (note : Note logical) :
    note.summary = ⟨note.said "id", note.said "var", note.said "clause", note.stated,
      note.said "group"⟩ := by
  induction note using List.reverseRecOn with
  | nil => rfl
  | append_singleton note q ih =>
      rw [Note.summary, List.foldl_append, ← Note.summary, ih, List.foldl_cons, List.foldl_nil,
        put_eq]
      simp only [Note.said, Note.stated, getLast?_filterMap_append]

/-- A head is read as its annotation has it, and nothing is wrong with what is assumed. -/
theorem headOf_summary (a : Assumption) (id id' subject : String) (o : Operator)
    (v : Option Operand) (note : Note logical) :
    headOf (a.defaults id') (.str id) subject o v note.summary =
      .ok (note.head a id subject o v) := by
  have htext : ∀ (s : Option String) (t : String),
      (s.map Json.str).getD (.str t) = .str (s.getD t) := fun s t => by cases s <;> rfl
  have hnumber : ∀ (x : Option Number) (y : Number),
      (x.map Json.float).getD (.float y) = .float (x.getD y) := fun x y => by cases x <;> rfl
  rw [headOf, summary_eq]
  simp only [Assumption.defaults, htext, hnumber]
  rfl

/-- What follows a rule is its annotation, or nothing. -/
theorem annotated_takes (a : Assumption) (id id' subject : String) (o : Operator)
    (v : Option Operand) (below : List Rule) (note : Note logical) (ts : List Token) :
    Takes (annotated stop logical (headOf (a.defaults id') (.str id) subject o v) below)
      note.lexemes (node (note.head a id subject o v) below) [mark '{'] ts := by
  intro out h hout
  rw [annotated, annotation_takes note ts out h hout]
  cases out <;> simp [outcome, headOf_summary, built]

theorem annotated_traced (a : Assumption) (id id' subject : String) (o : Operator)
    (v : Option Operand) (below : List Rule) (hts : ∀ t ∈ ts, t.IsLexed) :
    Traced stop (@Note.lexemes logical) (fun note => node (note.head a id subject o v) below) ts
      (annotated stop logical (headOf (a.defaults id') (.str id) subject o v) below ts) := by
  have hread := @annotation_traced stop logical ts hts
  unfold annotated
  split
  · next e he =>
    rw [he] at hread
    exact hread.of_error fun note => ⟨note, [], (List.append_nil _).symm⟩
  next b r hb =>
    rw [hb] at hread
    obtain ⟨note, rfl, hrun⟩ := hread
    rw [headOf_summary]
    exact ⟨note, rfl, hrun⟩

end Annotations

end Grammar
end Rule
end Eligibility
