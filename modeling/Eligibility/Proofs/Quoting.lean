import Mathlib.Tactic.Linarith
import Eligibility.Rule.Token
/-!
# Quoted texts are read back

**Escapes.**  What stands for a character between the quotes never closes them, and one
step of reading takes it for that character: a letter behind a backslash, the
character itself, or its units, one below `2 ^ 16` and two above.

**Results.**
* `quotedBody_escape`: a quoted text is one token, whatever stands behind it.
* `unquote_escape`: the text that a quoted text stands for is the text itself.
-/

namespace Eligibility
namespace Text
open Rule

section Units

theorem hexDigit_spec : ∀ n < 16,
    hexDigit n ≠ '"' ∧ hexDigit n ≠ '\\' ∧ hexValue? (hexDigit n) = some n := by decide

theorem hexValue?_mod (n : Nat) : hexValue? (hexDigit (n % 16)) = some (n % 16) :=
  (hexDigit_spec _ (Nat.mod_lt _ (by decide))).2.2

theorem unhex4?_hex {n : Nat} (hn : n < 65536) :
    unhex4? (hexDigit (n / 4096 % 16)) (hexDigit (n / 256 % 16)) (hexDigit (n / 16 % 16))
      (hexDigit (n % 16)) = some n := by
  simp only [unhex4?, hexValue?_mod, Option.some.injEq]
  omega

/-- A unit is read where more characters follow. -/
theorem readUnit_hex4 {n : Nat} (hn : n < 65536) {r : List Char} (hr : r ≠ []) :
    readUnit (hex4 n ++ r) = .ok (n, r) := by
  obtain ⟨c, s, rfl⟩ := List.exists_cons_of_ne_nil hr
  simp [hex4, readUnit, unhex4?_hex hn]

theorem readLowUnit_unitEscape {n : Nat} (hn : n < 65536) (hlow : isLowUnit n = true)
    {r : List Char} (hr : r ≠ []) : readLowUnit (unitEscape n ++ r) = .ok (some (n, r)) := by
  obtain ⟨c, s, rfl⟩ := List.exists_cons_of_ne_nil hr
  simp [unitEscape, hex4, readLowUnit, unhex4?_hex hn, hlow]

theorem toNat_lt (c : Char) : c.toNat < 0x110000 ∧ (c.toNat < 0xd800 ∨ 0xdfff < c.toNat) := by
  have := c.valid
  simp only [UInt32.isValidChar, Nat.isValidChar] at this
  simp only [Char.toNat]
  omega

/-- The units of a character beyond the first plane stand for it. -/
theorem readUnicode_pair {c : Char} (hc : 65536 ≤ c.toNat) {r : List Char} (hr : r ≠ []) :
    readUnicode (hex4 (0xd800 + (c.toNat - 65536) / 1024) ++
      (unitEscape (0xdc00 + (c.toNat - 65536) % 1024) ++ r)) = .ok (c, r) := by
  have := toNat_lt c
  have hhigh : isHighUnit (0xd800 + (c.toNat - 65536) / 1024) = true := by
    simp [isHighUnit]
    omega
  have hlow : isLowUnit (0xdc00 + (c.toNat - 65536) % 1024) = true := by
    simp [isLowUnit]
    omega
  have hpair : pairChar (0xd800 + (c.toNat - 65536) / 1024)
      (0xdc00 + (c.toNat - 65536) % 1024) = c := by
    rw [pairChar, show 65536 + (0xd800 + (c.toNat - 65536) / 1024 - 0xd800) * 1024 +
      (0xdc00 + (c.toNat - 65536) % 1024 - 0xdc00) = c.toNat by omega, Char.ofNat_toNat]
  rw [readUnicode, readUnit_hex4 (by omega) (by simp [unitEscape])]
  simp only [hhigh, if_true, readLowUnit_unitEscape (by omega) hlow hr, hpair]

theorem readUnicode_single {c : Char} (hc : c.toNat < 65536) {r : List Char} (hr : r ≠ []) :
    readUnicode (hex4 c.toNat ++ r) = .ok (c, r) := by
  have := toNat_lt c
  have hhigh : isHighUnit c.toNat = false := by
    simp [isHighUnit]
    omega
  have hlow : isLowUnit c.toNat = false := by
    simp [isLowUnit]
    omega
  rw [readUnicode, readUnit_hex4 hc hr]
  simp [hhigh, hlow, unitChar, Char.ofNat_toNat]

end Units

section Reading

/-- A letter behind a backslash stands for the character that it escapes. -/
theorem readStep_letter (start : Nat) {l c : Char} (h : letterEscape? l = some c) (r : List Char) :
    readStep start ('\\' :: l :: r) = .ok (some c, r) := by
  have hu : l ≠ 'u' := by
    rintro rfl
    cases h
  rw [readStep.eq_5 _ _ _ hu, h]

/-- A character that needs no escape stands for itself. -/
theorem readStep_char (start : Nat) {c : Char} (hq : c ≠ '"') (hb : c ≠ '\\')
    (hlow : 32 ≤ c.toNat) (r : List Char) : readStep start (c :: r) = .ok (some c, r) := by
  rw [readStep.eq_def]
  split <;> simp_all

/-- One step of reading takes what stands for a character for it. -/
theorem readStep_escapeChar (start : Nat) (c : Char) {r : List Char} (hr : r ≠ []) :
    readStep start (escapeChar c ++ r) = .ok (some c, r) := by
  unfold escapeChar
  split_ifs with h1 h2 h3 h4 h5 h6 h7 h8 h9
  · exact readStep_letter start (by rw [h1]; rfl) r
  · exact readStep_letter start (by rw [h2]; rfl) r
  · exact readStep_letter start (by rw [h3]; rfl) r
  · exact readStep_letter start (by rw [h4]; rfl) r
  · exact readStep_letter start (by rw [h5]; rfl) r
  · have hc : c = Char.ofNat 8 := by rw [← h6, Char.ofNat_toNat]
    exact readStep_letter start (by rw [hc]; rfl) r
  · have hc : c = Char.ofNat 12 := by rw [← h7, Char.ofNat_toNat]
    exact readStep_letter start (by rw [hc]; rfl) r
  · exact readStep_char start h1 h2 h8.1 r
  · simp [unitEscape, readStep, readUnicode_single h9 hr, Except.map]
  · have := readUnicode_pair (not_lt.mp h9) hr
    simp only [unitEscape, List.cons_append, List.append_assoc, readStep] at this ⊢
    rw [this]
    rfl

theorem readQuoted_escape (start : Nat) (rest : List Char) :
    ∀ (cs : List Char) (fuel : Nat), cs.length < fuel →
      readQuoted start fuel (escape cs ++ '"' :: rest) = .ok (cs, rest)
  | _, 0, h => absurd h (Nat.not_lt_zero _)
  | [], fuel + 1, _ => rfl
  | c :: cs, fuel + 1, h => by
      -- each character takes one step, however many characters stand for it
      have ih := readQuoted_escape start rest cs fuel (by simpa using h)
      have hstep := readStep_escapeChar start c (r := escape cs ++ '"' :: rest) (by simp)
      rw [readQuoted, escape, List.flatMap_cons, List.append_assoc]
      simp only [escape] at hstep ih ⊢
      simp [hstep, ih, Except.map]

theorem length_le_length_escape (cs : List Char) : cs.length ≤ (escape cs).length := by
  induction cs with
  | nil => simp [escape]
  | cons c cs ih =>
      have hc : 0 < (escapeChar c).length := by
        unfold escapeChar
        split_ifs <;> simp [unitEscape]
      simp only [escape, List.flatMap_cons, List.length_append, List.length_cons] at ih ⊢
      omega

/-- A quoted text stands for the text itself. -/
theorem unquote_escape (cs rest : List Char) :
    unquote (escape cs ++ '"' :: rest) = .ok (cs, rest) := by
  have := length_le_length_escape cs
  exact readQuoted_escape _ _ _ _ (by simp; omega)

end Reading

section Tokens

/-- Characters that neither close a quoted text nor end it. -/
def IsInert (cs : List Char) : Prop :=
  ∀ r, Token.quotedBody (cs ++ r) = (Token.quotedBody r).map (Token.before cs)

theorem IsInert.append {cs ds : List Char} (hc : IsInert cs) (hd : IsInert ds) :
    IsInert (cs ++ ds) := by
  intro r
  rw [List.append_assoc, hc, hd, Option.map_map]
  congr 1
  funext p
  simp [Token.before]

theorem isInert_nil : IsInert [] := by
  intro r
  cases h : Token.quotedBody r <;> simp [h, Token.before]

theorem isInert_letter {c : Char} (hc : c ≠ '\n') : IsInert ['\\', c] := by
  intro r
  simp [Token.quotedBody, hc]

theorem isInert_char {c : Char} (hq : c ≠ '"') (hb : c ≠ '\\') : IsInert [c] := by
  intro r
  rw [List.singleton_append, Token.quotedBody.eq_def]
  split <;> simp_all

theorem isInert_hexDigit (n : Nat) : IsInert [hexDigit (n % 16)] := by
  obtain ⟨hq, hb, -⟩ := hexDigit_spec (n % 16) (Nat.mod_lt _ (by decide))
  exact isInert_char hq hb

theorem isInert_unitEscape (n : Nat) : IsInert (unitEscape n) := by
  have hu : IsInert ['\\', 'u'] := isInert_letter (by decide)
  exact (((hu.append (isInert_hexDigit _)).append (isInert_hexDigit _)).append
    (isInert_hexDigit _)).append (isInert_hexDigit _)

theorem isInert_escapeChar (c : Char) : IsInert (escapeChar c) := by
  unfold escapeChar
  split_ifs with h1 h2 h3 h4 h5 h6 h7 h8 h9
  -- the seven characters that have a letter of their own
  iterate 7 exact isInert_letter (by decide)
  · exact isInert_char h1 h2
  · exact isInert_unitEscape _
  · exact (isInert_unitEscape _).append (isInert_unitEscape _)

theorem isInert_escape (cs : List Char) : IsInert (escape cs) := by
  induction cs with
  | nil => exact isInert_nil
  | cons c cs ih => exact (isInert_escapeChar c).append ih

/-- A quoted text ends at its closing quote. -/
theorem quotedBody_escape (cs rest : List Char) :
    Token.quotedBody (escape cs ++ '"' :: rest) = some (escape cs ++ ['"'], rest) := by
  rw [isInert_escape cs]
  rfl

end Tokens

end Text
end Eligibility
