import Eligibility.Proofs.Parsing
/-!
# The grammar of rules

**Derivations.**  A derivation says which phrases a sequence of lexemes consists of: variables,
comparison signs, literals and annotations, the rules below a logical rule in their order.  It
keeps the texts of the lexemes, and no derivation breaks the grammar: a word of the language is no
variable, and the variable of a comparison has no place in its annotation.

**Rules.**  A derivation stands for a rule.  What its annotation says counts, of two values for one
key the later one, and what it leaves open is assumed: a clause, a confidence, and the identifier
that the place of the rule gives.

**Uniqueness.**  The lexemes of a phrase say which phrase they are, and where it ends, unless what
follows could go on with it: behind a rule a brace, behind several of them a comma.

**Results.**
* `Derivation.determines`: a derivation is told from the lexemes that begin with its own.
* `Derivation.lexemes_injective`: no two derivations have the same lexemes.
-/

namespace Eligibility

theorem Operator.name_injective : Function.Injective Operator.name := fun o p h =>
  Option.some.inj ((ofName?_name o).symm.trans (h ▸ ofName?_name p))

namespace Rule
namespace Grammar

section Phrases

/-- The text that a quoted lexeme stands for; empty, where it stands for none. -/
def textOf (t : List Char) : String :=
  match Text.unquote t.tail with
  | .ok (s, _) => String.ofList s
  | .error _ => ""

/-- The number that a lexeme stands for. -/
def numeral (t : List Char) : Number := (Number.read? (Text.asciiDigits t)).getD (.nan .fresh)

/-- A variable: a back-quoted name, or a word that is none of the language. -/
inductive Subject where
  | ticked (t : List Char)
  | word (t : List Char) (h : t ∉ words)

/-- The lexeme of a variable. -/
def Subject.lexeme : Subject → Lexeme
  | ticked t => (.ticked, t)
  | word t _ => (.word, t)

/-- The name of a variable. -/
def Subject.name : Subject → String
  | ticked t => String.ofList (Parser.unticked t.tail.dropLast)
  | word t _ => String.ofList t

/-- A literal: a number, a quoted text, a truth value, or quoted texts between brackets. -/
inductive Literal where
  | number (t : List Char)
  | text (t : List Char)
  | flag (b : Bool)
  | texts (ts : List (List Char))

/-- A quoted text as a phrase. -/
def quotation (t : List Char) : List Lexeme := [(.quoted, t)]

/-- The lexemes of a literal. -/
def Literal.lexemes : Literal → List Lexeme
  | number t => [(.number, t)]
  | text t => quotation t
  | flag b => [(.word, Operand.flagText b)]
  | texts ts => mark '[' :: (commaLexemes (ts.map quotation) ++ [mark ']'])

/-- The operand that a literal stands for. -/
def Literal.operand : Literal → Operand
  | number t => .number (numeral t)
  | text t => .text (textOf t)
  | flag b => .flag b
  | texts ts => .texts (TextSet.ofList (ts.map textOf))

/-- The keys of annotations that have texts for values; only logical rules have a variable there. -/
def textKeys (logical : Bool) : List String :=
  if logical then ["id", "var", "clause", "group"] else ["id", "clause", "group"]

/-- A key of an annotation and its value. -/
inductive Pair (logical : Bool) where
  | text (key : String) (h : key ∈ textKeys logical) (t : List Char)
  | confidence (t : List Char)

variable {logical : Bool}

/-- The key of a pair. -/
def Pair.key : Pair logical → String
  | text k _ _ => k
  | confidence _ => "confidence"

/-- The value of a pair. -/
def Pair.value : Pair logical → Lexeme
  | text _ _ t => (.quoted, t)
  | confidence t => (.number, t)

/-- The lexemes of a pair. -/
def Pair.lexemes (q : Pair logical) : List Lexeme := [(.word, q.key.toList), mark '=', q.value]

/-- An annotation: pairs between braces, or nothing. -/
abbrev Note (logical : Bool) := List (Pair logical)

/-- The lexemes of an annotation. -/
def Note.lexemes : Note logical → List Lexeme
  | [] => []
  | q :: qs => mark '{' :: (commaLexemes ((q :: qs).map Pair.lexemes) ++ [mark '}'])

/-- The text that a pair gives for a key. -/
def Pair.said? (key : String) : Pair logical → Option String
  | text k _ t => if k = key then some (textOf t) else none
  | confidence _ => none

/-- The number that a pair gives. -/
def Pair.stated? : Pair logical → Option Number
  | text _ _ _ => none
  | confidence t => some (numeral t)

/-- The last text that an annotation gives for a key. -/
def Note.said (note : Note logical) (key : String) : Option String :=
  (note.filterMap (Pair.said? key)).getLast?

/-- The last number that an annotation gives. -/
def Note.stated (note : Note logical) : Option Number := (note.filterMap Pair.stated?).getLast?

end Phrases

/-- A derivation of an expression. -/
inductive Derivation where
  | comparison (s : Subject) (o : Operator) (ho : o.isLogical = false) (v : Literal)
      (note : Note false)
  | logical (o : Operator) (ho : o.isLogical = true) (first : Derivation) (more : List Derivation)
      (note : Note true)

namespace Derivation

mutual

/-- The lexemes of a derivation. -/
def lexemes : Derivation → List Lexeme
  | comparison s o _ v note => s.lexeme :: (signLexemes o ++ (v.lexemes ++ note.lexemes))
  | logical o _ first more note =>
      (.word, o.name.toList) :: mark '(' ::
        (commaLexemes (lexemes first :: lexemesAll more) ++ mark ')' :: note.lexemes)

/-- The lexemes of several derivations. -/
def lexemesAll : List Derivation → List (List Lexeme)
  | [] => []
  | e :: es => lexemes e :: lexemesAll es

end

theorem lexemesAll_eq_map (es : List Derivation) : lexemesAll es = es.map lexemes := by
  induction es with
  | nil => rfl
  | cons e es ih => rw [lexemesAll, ih, List.map_cons]

end Derivation

section Rules

/-- What is assumed for rules whose annotation leaves it open. -/
structure Assumption where
  clause : String
  confidence : Number

/-- What is assumed, with the identifier of the whole rule. -/
def Assumption.defaults (a : Assumption) (id : String) : Defaults :=
  ⟨.str a.clause, .float a.confidence, .str id⟩

variable (a : Assumption)

/-- The head of a rule with an annotation, its texts without the blanks around them. -/
def Note.head {logical : Bool} (note : Note logical) (id subject : String) (o : Operator)
    (v : Option Operand) : Head where
  id := Text.strip ((note.said "id").getD id)
  subject := Text.strip ((note.said "var").getD subject)
  operator := o
  value := v
  clause := Text.strip ((note.said "clause").getD a.clause)
  confidence := some (note.stated.getD a.confidence)
  group := note.said "group"

/-- The identifier of the rule at a place below another one. -/
def placeId (id : String) (place : Nat) : String :=
  id ++ "." ++ String.ofList (Decimal.digitsOf place)

namespace Derivation

mutual

/-- The rule that a derivation stands for, with the identifier that its place gives. -/
def rule (id : String) : Derivation → Rule
  | comparison s o _ v note => node (note.head a id s.name o (some v.operand)) []
  | logical o _ first more note =>
      node (note.head a id (Schema.lowerAscii o.name) o none)
        (rule (placeId id 0) first :: rulesAll id 1 more)

/-- The rules that several derivations stand for, the first at a given place below another rule. -/
def rulesAll (id : String) (place : Nat) : List Derivation → List Rule
  | [] => []
  | e :: es => rule (placeId id place) e :: rulesAll id (place + 1) es

end

end Derivation

end Rules

section Uniqueness

/-- Whether what follows begins with none of some lexemes. -/
def Admits (bars us : List Lexeme) : Prop := ∀ l ∈ us.head?, l ∉ bars

/-- A phrase is told from the lexemes that begin with its own, and so is its end, unless it could
go on with what follows. -/
def Determines {α : Type} (f : α → List Lexeme) (bars : List Lexeme) (x : α) : Prop :=
  ∀ y us vs, Admits bars us → Admits bars vs → f x ++ us = f y ++ vs → x = y ∧ us = vs

variable {α : Type} {f : α → List Lexeme} {bars : List Lexeme}

theorem Admits.cons {l : Lexeme} (h : l ∉ bars) (us : List Lexeme) : Admits bars (l :: us) := by
  rintro m ⟨⟩
  exact h

theorem Admits.mono {bars' us : List Lexeme} (h : Admits bars us) (hsub : bars' ⊆ bars) :
    Admits bars' us := fun l hl hmem => h l hl (hsub hmem)

theorem admits_nil (bars : List Lexeme) : Admits bars [] := by simp [Admits]

/-- A comma goes before each of several phrases. -/
def behindCommas (f : α → List Lexeme) (xs : List α) : List Lexeme :=
  xs.flatMap fun x => mark ',' :: f x

theorem Admits.behindCommas (hc : mark ',' ∉ bars) {us : List Lexeme} (h : Admits bars us) :
    ∀ xs : List α, Admits bars (behindCommas f xs ++ us)
  | [] => h
  | _ :: _ => Admits.cons hc _

/-- Phrases behind commas are told one by one; they end where no comma follows. -/
theorem determines_behindCommas (hc : mark ',' ∉ bars) : ∀ (xs : List α),
    (∀ x ∈ xs, Determines f bars x) → Determines (behindCommas f) (mark ',' :: bars) xs
  | [], _, ys, us, vs, hus, _, h => by
      cases ys with
      | nil => exact ⟨rfl, h⟩
      | cons y ys =>
          obtain rfl : us = mark ',' :: (f y ++ behindCommas f ys ++ vs) := by
            simpa [behindCommas] using h
          exact absurd List.mem_cons_self (hus _ rfl)
  | x :: xs, hxs, ys, us, vs, hus, hvs, h => by
      cases ys with
      | nil =>
          obtain rfl : mark ',' :: (f x ++ behindCommas f xs ++ us) = vs := by
            simpa [behindCommas] using h
          exact absurd List.mem_cons_self (hvs _ rfl)
      | cons y ys =>
          have hsub : bars ⊆ mark ',' :: bars := List.subset_cons_self _ _
          obtain ⟨rfl, hrest⟩ := hxs x (by simp) y (behindCommas f xs ++ us)
            (behindCommas f ys ++ vs) ((hus.mono hsub).behindCommas hc xs)
            ((hvs.mono hsub).behindCommas hc ys) (by simpa [behindCommas] using h)
          obtain ⟨rfl, rfl⟩ := determines_behindCommas hc xs
            (fun z hz => hxs z (List.mem_cons_of_mem _ hz)) ys us vs hus hvs hrest
          exact ⟨rfl, rfl⟩

theorem commaLexemes_map_cons (x : α) (xs : List α) :
    commaLexemes ((x :: xs).map f) = f x ++ behindCommas f xs := by
  rw [List.map_cons, Parser.commaLexemes_cons, List.flatMap_map, behindCommas]

/-- Phrases that commas separate are told one by one. -/
theorem determines_commas (hc : mark ',' ∉ bars) {x : α} {xs : List α}
    (hxs : ∀ z ∈ x :: xs, Determines f bars z) {y : α} {ys : List α} {us vs : List Lexeme}
    (hus : Admits (mark ',' :: bars) us) (hvs : Admits (mark ',' :: bars) vs)
    (h : commaLexemes ((x :: xs).map f) ++ us = commaLexemes ((y :: ys).map f) ++ vs) :
    x = y ∧ xs = ys ∧ us = vs := by
  have hsub : bars ⊆ mark ',' :: bars := List.subset_cons_self _ _
  simp only [commaLexemes_map_cons, List.append_assoc] at h
  obtain ⟨rfl, hrest⟩ := hxs x (by simp) y _ _ ((hus.mono hsub).behindCommas hc xs)
    ((hvs.mono hsub).behindCommas hc ys) h
  obtain ⟨rfl, rfl⟩ := determines_behindCommas hc xs
    (fun z hz => hxs z (List.mem_cons_of_mem _ hz)) ys us vs hus hvs hrest
  exact ⟨rfl, rfl, rfl⟩

theorem determines_quotation (t : List Char) : Determines quotation [] t := by
  intro u us vs _ _ h
  simpa [quotation] using h

/-- A literal is told from its lexemes. -/
theorem Literal.determines (v : Literal) : Determines Literal.lexemes [] v := by
  intro w us vs _ _ h
  have hclose : ∀ us, Admits [mark ','] (mark ']' :: us) := Admits.cons (by decide)
  cases v with
  | number t => cases w <;> simp_all [Literal.lexemes, quotation, mark]
  | text t => cases w <;> simp_all [Literal.lexemes, quotation, mark]
  | flag b => 
      have hflag : ∀ b c, Operand.flagText b = Operand.flagText c → b = c := by decide
      cases w with
      | flag c =>
        simp only [Literal.lexemes, List.cons_append, List.nil_append, List.cons.injEq,
          Prod.mk.injEq, true_and] at h
        exact ⟨congrArg _ (hflag b c h.1), h.2⟩
      | _ => simp_all [Literal.lexemes, quotation, mark]
  | texts ts =>
      cases w with
      | texts ws =>
          simp only [Literal.lexemes, List.cons_append, List.append_assoc, List.cons.injEq,
            true_and, List.nil_append] at h
          cases ts with
          | nil =>
              cases ws with
              | nil => simpa [commaLexemes] using h
              | cons w ws =>
                  rw [commaLexemes_map_cons] at h
                  simp [commaLexemes, quotation, mark] at h
          | cons t ts =>
              cases ws with
              | nil =>
                  rw [commaLexemes_map_cons] at h
                  simp [commaLexemes, quotation, mark] at h
              | cons w ws =>
                  obtain ⟨rfl, rfl, hrest⟩ := determines_commas (by simp)
                    (fun z _ => determines_quotation z) (hclose us) (hclose vs) h
                  exact ⟨rfl, by simpa using hrest⟩
      | _ => simp_all [Literal.lexemes, quotation, mark]

theorem Pair.determines {logical : Bool} (q : Pair logical) : Determines Pair.lexemes [] q := by
  intro r us vs _ _ h
  cases q with
  | text k hk t => cases r <;> simp_all [Pair.lexemes, Pair.key, Pair.value, String.toList_inj]
  | confidence t => cases r <;> simp_all [Pair.lexemes, Pair.key, Pair.value]

/-- An annotation is told from its lexemes, and so is that there is none where no brace follows. -/
theorem Note.determines {logical : Bool} (note : Note logical) :
    Determines Note.lexemes [mark '{'] note := by
  intro other us vs hus hvs h
  have hclose : ∀ us, Admits [mark ','] (mark '}' :: us) := Admits.cons (by decide)
  cases note with
  | nil =>
      cases other with
      | nil => exact ⟨rfl, h⟩
      | cons r rs =>
          obtain rfl : us = _ := h
          exact absurd List.mem_cons_self (hus _ rfl)
  | cons q qs =>
      cases other with
      | nil =>
          obtain rfl : _ = vs := h
          exact absurd List.mem_cons_self (hvs _ rfl)
      | cons r rs =>
          simp only [Note.lexemes, List.cons_append, List.append_assoc, List.cons.injEq,
            true_and, List.nil_append] at h
          obtain ⟨rfl, rfl, hrest⟩ := determines_commas (by simp) (fun z _ => z.determines)
            (hclose us) (hclose vs) h
          exact ⟨rfl, by simpa using hrest⟩

theorem Subject.lexeme_injective : Function.Injective Subject.lexeme := by
  intro s t h
  cases s <;> cases t <;> simp_all [Subject.lexeme]

/-- The first lexeme of a sign tells which one it is. -/
theorem determines_signLexemes {o p : Operator} (ho : o.isLogical = false)
    (hp : p.isLogical = false) {us vs : List Lexeme}
    (h : signLexemes o ++ us = signLexemes p ++ vs) : o = p ∧ us = vs := by
  have hhead : ∀ o ∈ Operator.all, ∀ p ∈ Operator.all, o.isLogical = false →
      p.isLogical = false → (signLexemes o).head? = (signLexemes p).head? → o = p := by decide
  have hne : ∀ o : Operator, signLexemes o ≠ [] := fun o => by cases o <;> simp [signLexemes]
  have hmem : ∀ o : Operator, o ∈ Operator.all := fun o => by cases o <;> decide
  obtain rfl : o = p := by
    refine hhead o (hmem o) p (hmem p) ho hp ?_
    have := congrArg List.head? h
    rwa [List.head?_append_of_ne_nil _ (hne o), List.head?_append_of_ne_nil _ (hne p)] at this
  exact ⟨rfl, List.append_cancel_left h⟩

namespace Derivation

/-- A logical word is no variable. -/
theorem name_ne_lexeme {o : Operator} (ho : o.isLogical = true) (s : Subject) :
    (.word, o.name.toList) ≠ s.lexeme := by
  have hwords : ∀ o ∈ Operator.all, o.isLogical = true → o.name.toList ∈ words := by decide
  have hmem : o ∈ Operator.all := by cases o <;> decide
  cases s with
  | ticked t => simp [Subject.lexeme]
  | word t ht =>
      simp only [Subject.lexeme, ne_eq, Prod.mk.injEq, true_and]
      rintro rfl
      exact ht (hwords o hmem ho)

mutual

/-- A derivation is told from the lexemes that begin with its own, where no brace follows. -/
theorem determines : ∀ e : Derivation, Determines lexemes [mark '{'] e
  | comparison s o ho v note, f, us, vs, hus, hvs, h => by
      cases f with
      | comparison t p hp w note' =>
          simp only [lexemes, List.cons_append, List.append_assoc, List.cons.injEq] at h
          obtain ⟨hs, hsigns⟩ := h
          obtain rfl := Subject.lexeme_injective hs
          obtain ⟨rfl, hvalues⟩ := determines_signLexemes ho hp hsigns
          obtain ⟨rfl, hnotes⟩ :=
            v.determines w _ _ (by simp [Admits]) (by simp [Admits]) hvalues
          obtain ⟨rfl, rfl⟩ := note.determines note' us vs hus hvs hnotes
          exact ⟨rfl, rfl⟩
      | logical p hp first more note' =>
          simp only [lexemes, List.cons_append, List.cons.injEq] at h
          exact absurd h.1.symm (name_ne_lexeme hp s)
  | logical o ho first more note, f, us, vs, hus, hvs, h => by
      cases f with
      | comparison t p hp w note' =>
          simp only [lexemes, List.cons_append, List.cons.injEq] at h
          exact absurd h.1 (name_ne_lexeme ho t)
      | logical p hp first' more' note' =>
          have hclose : ∀ us, Admits [mark ',', mark '{'] (mark ')' :: us) :=
            Admits.cons (by decide)
          simp only [lexemes, lexemesAll_eq_map, ← List.map_cons, List.cons_append,
            List.append_assoc, List.cons.injEq, Prod.mk.injEq, true_and] at h
          obtain ⟨hname, hbelow⟩ := h
          obtain rfl := Operator.name_injective (String.toList_inj.mp hname)
          obtain ⟨rfl, rfl, hnotes⟩ := determines_commas (by decide)
            (List.forall_mem_cons.mpr ⟨determines first, determinesAll more⟩) (hclose _)
            (hclose _) hbelow
          obtain ⟨rfl, rfl⟩ := note.determines note' us vs hus hvs (by simpa using hnotes)
          exact ⟨rfl, rfl⟩

theorem determinesAll : ∀ es : List Derivation, ∀ e ∈ es, Determines lexemes [mark '{'] e
  | [], _, he => by cases he
  | e :: es, f, hf => by
      rcases List.mem_cons.mp hf with hf | hf
      · exact hf ▸ determines e
      · exact determinesAll es f hf

end

/-- No two derivations have the same lexemes. -/
theorem lexemes_injective : Function.Injective lexemes := fun e f h =>
  (determines e f [] [] (admits_nil _) (admits_nil _) (by rw [h])).1

end Derivation

end Uniqueness

end Grammar
end Rule
end Eligibility
