import Eligibility.Proofs.Derivations
/-!
# How reading of a rule ends

**Ends.**  A text is a rule, or is refused with a place in it.  Two things come between: a quoted
text with something wrong between its quotes, which is refused by the reader of quoted texts, and
parentheses that are too deep.

**Quoted texts.**  The misreading escapes exactly where the tokens up to the quoted text begin the
lexemes of some derivation: where something else is wrong before, that is refused.

**Results.**
* `parseWithin_ends`: how reading ends, for every text.
* `not_forall_endsInPlace`: a text whose reading ends otherwise than in a rule or a place.
-/

namespace Eligibility
namespace Rule

open Grammar

section Ends

/-- Whether reading ends in a rule or in a refusal with a place in the text. -/
def EndsInPlace (text : String) (x : Except Fault Rule) : Prop :=
  (∃ r, x = .ok r) ∨ ∃ f report n, x = .error f ∧ f.report? = some report ∧
    report.category = .schemaValidation ∧ report.code = "PARSE_ERROR" ∧
      report.details = [("position", Json.nat n)] ∧ n ≤ text.toList.length

/-- Whether the first quoted text among the tokens of a text that cannot be read comes where the
tokens up to it begin the lexemes of a derivation. -/
def IsStuck (text : String) (m : Json.Misread) : Prop :=
  ∃ (pre post : List Token) (t : Token) (rest : List Lexeme) (e : Derivation),
    Token.split text.toList = .ok (pre ++ t :: post) ∧ (∀ u ∈ pre, u.misread? = none) ∧
      t.misread? = some m ∧ e.lexemes = pre.map Token.lexeme ++ t.lexeme :: rest

/-- Whether more levels of parentheses are open somewhere in a text than are allowed. -/
def IsDeep (levels : Nat) (text : String) : Prop :=
  ∃ ts n, Token.split text.toList = .ok ts ∧ tokensAbove? levels 0 ts = some n

variable {text : String} {m : Json.Misread}

theorem runs_error_iff {ls : List Lexeme} {ts : List Token} :
    Runs ls ts (.error m) ↔ ∃ pre post t rest, ts = pre ++ t :: post ∧
      (∀ u ∈ pre, u.misread? = none) ∧ t.misread? = some m ∧
        ls = pre.map Token.lexeme ++ t.lexeme :: rest := by
  constructor
  · intro h
    induction ls generalizing ts with
    | nil => cases h
    | cons l ls ih =>
        obtain ⟨t, us, rfl, rfl, ⟨ht, h⟩ | ⟨m, ht, hm⟩⟩ := h.of_cons
        · obtain ⟨pre, post, u, rest, rfl, hpre, hu, rfl⟩ := ih h
          exact ⟨t :: pre, post, u, rest, rfl, List.forall_mem_cons.mpr ⟨ht, hpre⟩, hu, rfl⟩
        · cases hm
          exact ⟨[], us, t, ls, rfl, List.forall_mem_nil _, ht, rfl⟩
  · rintro ⟨pre, post, t, rest, rfl, hpre, ht, rfl⟩
    induction pre with
    | nil => exact .flaw ht rest post
    | cons u pre ih =>
        obtain ⟨hu, hpre⟩ := List.forall_mem_cons.mp hpre
        exact .token hu (ih hpre)

theorem isStuck_iff : IsStuck text m ↔
    ∃ (ts : List Token) (e : Derivation), Token.split text.toList = .ok ts ∧
      Runs e.lexemes ts (.error m) := by
  constructor
  · rintro ⟨pre, post, t, rest, e, hts, hpre, ht, he⟩
    exact ⟨_, e, hts, runs_error_iff.mpr ⟨pre, post, t, rest, rfl, hpre, ht, he⟩⟩
  · rintro ⟨ts, e, hts, hrun⟩
    obtain ⟨pre, post, t, rest, rfl, hpre, ht, he⟩ := runs_error_iff.mp hrun
    exact ⟨pre, post, t, rest, e, hts, hpre, ht, he⟩

/-- A text is too deep only where more levels are open than are allowed. -/
theorem isDeep_of_isTooDeep {levels : Nat} {d : Defaults} (h : isTooDeep levels d text = true) :
    IsDeep levels text := by
  unfold isTooDeep at h
  dsimp only at h
  split at h
  · cases h
  next ts hts =>
    split at h
    · cases h
    next n hn => exact ⟨ts, n, hts, hn⟩

/-- Reading ends in a rule, in a refusal with a place in the text, or in one of two other ways: in
the misreading of a quoted text to which the reader comes, always where no parentheses are too
deep, and without a bound on them only where some are.  Every token has its value. -/
theorem parseWithin_ends (levels : Nat) (a : Assumption) (id text : String) :
    (∀ ts, Token.split text.toList = .ok ts → ∀ t ∈ ts, t.HasValue) ∧
    (EndsInPlace text (parseWithin levels (a.defaults id) text) ∨
      (∃ m, parseWithin levels (a.defaults id) text = .error (.misread m) ∧ IsStuck text m) ∨
      parseWithin levels (a.defaults id) text = .error .unbounded ∧ IsDeep levels text) ∧
    (¬ IsDeep levels text → ∀ m, IsStuck text m →
      parseWithin levels (a.defaults id) text = .error (.misread m)) := by
  refine ⟨fun ts hts t ht => (Token.isLexed_of_split hts t ht).hasValue, ?_, fun hdeep m hm => ?_⟩
  · by_cases hdeep : isTooDeep levels (a.defaults id) text = true
    · exact .inr (.inr ⟨if_pos hdeep, isDeep_of_isTooDeep hdeep⟩)
    · have hparse : parseWithin levels (a.defaults id) text =
          (parse (a.defaults id) text).mapError Fault.ofParse := if_neg hdeep
      rw [hparse]
      rcases parse_cases a id text with ⟨ts, e, hts, hrun, h⟩ | ⟨ts, e, m, hts, hrun, h⟩ |
        ⟨c, n, h, hn⟩
      · rw [h]
        exact .inl (.inl ⟨_, rfl⟩)
      · rw [h]
        exact .inr (.inl ⟨m, rfl, isStuck_iff.mpr ⟨ts, e, hts, hrun⟩⟩)
      · rw [h]
        exact .inl (.inr ⟨_, _, n, rfl, rfl, rfl, rfl, rfl, hn⟩)
  · obtain ⟨ts, e, hts, hrun⟩ := isStuck_iff.mp hm
    have hparse := @parse_of_runs a id text ts e _ hts hrun nofun
    have hnot : ¬ isTooDeep levels (a.defaults id) text = true := fun h =>
      hdeep (isDeep_of_isTooDeep h)
    rw [parseWithin, if_neg hnot, hparse]
    rfl

/-- A comparison with a quoted text that has an escape of no character. -/
def oddEscape : String := "x == \"\\q\""

/-- A text whose reading ends neither in a rule nor in a place in it. -/
theorem not_forall_endsInPlace :
    ¬ ∀ text : String, EndsInPlace text (parseWithin parenthesisLimit {} text) := by
  intro h
  have hread : (match parseWithin parenthesisLimit {} oddEscape with
      | .error f => f.report?.isNone
      | .ok _ => false) = true := by decide +kernel
  have hends := h oddEscape
  generalize parseWithin parenthesisLimit {} oddEscape = x at hread hends
  rcases hends with ⟨r, rfl⟩ | ⟨f, report, n, rfl, hreport, -⟩
  · cases hread
  · replace hread : f.report?.isNone = true := hread
    rw [hreport] at hread
    cases hread

end Ends

end Rule
end Eligibility
