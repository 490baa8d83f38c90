import Eligibility.Proofs.Doubles
import Eligibility.Rule.Token
/-!
# Numerals

**Form.**  A numeral has digits, perhaps digits behind a point, and perhaps an
exponent.  Its text is one token, whatever stands behind it that can be part of no
number, and it is read as the decimal that its digits write.

**Numbers.**  The text of every double is a numeral, perhaps behind a minus sign, and is
read back as the same number.

**Results.**
* `numberPiece_signed`: the text of a numeral is one token.
* `read?_signed`: it is read as its decimal.
* `exists_numeral_brief`: the text of a double is that of a numeral that is read as it.
-/

namespace Eligibility
open Number Rounding Rule

/-- A number, the zero with a minus sign taken for the one without. -/
def Number.plain : Number → Number
  | .negZero => zero
  | x => x

/-- A number in decimal form: digits, perhaps more of them behind a point, perhaps an exponent. -/
structure Numeral where
  whole : List Char
  part : List Char := []
  exponent : Option Int := none
  whole_ne : whole ≠ []
  isDigit_whole : ∀ c ∈ whole, c.isDigit = true
  isDigit_part : ∀ c ∈ part, c.isDigit = true

/-- What follows a numeral is not part of it. -/
def EndsNumber (rest : List Char) : Prop :=
  ∀ c ∈ rest.head?, Text.isDecimalDigit c = false ∧ c ≠ '.' ∧ c ≠ 'e' ∧ c ≠ 'E'

namespace Numeral

/-- The digits behind the point, with the point. -/
def partText (ds : List Char) : List Char := if ds = [] then [] else '.' :: ds

/-- An exponent behind its letter. -/
def exponentText : Option Int → List Char
  | none => []
  | some e => 'e' :: Decimal.exponentText e

/-- The text of a numeral. -/
def chars (n : Numeral) : List Char :=
  n.whole ++ (partText n.part ++ exponentText n.exponent)

/-- The text of a numeral behind a minus sign, or without one. -/
def signed (n : Numeral) (negative : Bool) : List Char :=
  if negative then '-' :: n.chars else n.chars

/-- The decimal of a numeral. -/
def decimal (n : Numeral) : Decimal :=
  ⟨digitsValue (n.whole ++ n.part), n.exponent.getD 0 - n.part.length⟩

section Digits

theorem isDigit_digitsOf (n : Nat) : ∀ c ∈ Decimal.digitsOf n, c.isDigit = true :=
  fun _ hc => Nat.isDigit_of_mem_toDigits (by decide) (by decide) hc

theorem digitsValue_digitsOf (n : Nat) : digitsValue (Decimal.digitsOf n) = n :=
  Nat.ofDigitChars_ten_toDigits

theorem isDecimalDigit_of_isDigit {ds : List Char} (h : ∀ c ∈ ds, c.isDigit = true) :
    ∀ c ∈ ds, Text.isDecimalDigit c = true :=
  fun c hc => Text.isDecimalDigit_of_isDigit (h c hc)

/-- The exponent of a numeral has a sign and digits that write it. -/
theorem exists_exponentText (e : Int) : ∃ c ds, Decimal.exponentText e = c :: ds ∧
    (c = '+' ∨ c = '-') ∧ ds ≠ [] ∧ (∀ d ∈ ds, d.isDigit = true) ∧
    (if c = '-' then -(digitsValue ds : Int) else digitsValue ds) = e := by
  let ds := Decimal.digitsOf e.natAbs
  let padded := if ds.length < 2 then '0' :: ds else ds
  have hne : ds ≠ [] := Nat.toDigits_ne_nil
  have hvalue : digitsValue padded = e.natAbs := by
    have : digitsValue ('0' :: ds) = digitsValue ds := rfl
    simp only [padded]
    split
    · rw [this, digitsValue_digitsOf]
    · exact digitsValue_digitsOf _
  refine ⟨if e < 0 then '-' else '+', padded, rfl, ?_, ?_, ?_, ?_⟩
  · split <;> simp
  · simp only [padded]
    split <;> simp [hne]
  · simp only [padded]
    split
    · simpa using isDigit_digitsOf e.natAbs
    · exact isDigit_digitsOf e.natAbs
  · rw [hvalue]
    by_cases he : e < 0
    · simp only [he, if_true]
      omega
    · simp only [he, if_false, show ¬ ('+' = '-') by decide]
      omega

end Digits

section Lexing

variable {ds rest : List Char}

theorem digitRun_append (hds : ∀ c ∈ ds, c.isDigit = true)
    (hr : ∀ c ∈ rest.head?, Text.isDecimalDigit c = false) :
    Token.digitRun (ds ++ rest) = (ds, rest) := by
  have hds := isDecimalDigit_of_isDigit hds
  rw [Token.digitRun, List.takeWhile_append_of_pos hds, List.dropWhile_append_of_pos hds]
  cases rest with
  | nil => simp
  | cons c r =>
      have := hr c rfl
      simp [this]

theorem exponent_append (e : Option Int) (hr : EndsNumber rest) :
    Token.exponent (exponentText e ++ rest) = (exponentText e, rest) := by
  cases e with
  | none =>
      cases rest with
      | nil => rfl
      | cons c r =>
          obtain ⟨-, -, he, hE⟩ := hr c rfl
          simp [exponentText, Token.exponent, he, hE]
  | some e =>
      obtain ⟨c, ds, heq, hc, hne, hds, -⟩ := exists_exponentText e
      have hrun := digitRun_append hds fun c hc => (hr c hc).1
      rcases hc with rfl | rfl <;>
        simp [exponentText, heq, Token.exponent, hrun, hne]

/-- The digits of a numeral, the point among them, end where its exponent or what follows
begins. -/
theorem mantissa_append (n : Numeral)
    (hr : ∀ c ∈ rest.head?, Text.isDecimalDigit c = false ∧ c ≠ '.') :
    Token.mantissa (n.whole ++ (partText n.part ++ rest)) =
      some (n.whole ++ partText n.part, rest) := by
  have hdigits := fun c hc => (hr c hc).1
  unfold Token.mantissa partText
  split
  · next hp =>
    rw [List.nil_append, digitRun_append n.isDigit_whole hdigits]
    cases rest with
    | nil => simp [n.whole_ne]
    | cons c r =>
        have := (hr c rfl).2
        simp [n.whole_ne, this]
  · have hpart := digitRun_append n.isDigit_part hdigits
    rw [digitRun_append n.isDigit_whole (by rintro c ⟨⟩; decide)]
    simp [hpart, n.whole_ne]

theorem head_exponentText (e : Option Int) (hr : EndsNumber rest) :
    ∀ c ∈ (exponentText e ++ rest).head?, Text.isDecimalDigit c = false ∧ c ≠ '.' := by
  cases e with
  | none => exact fun c hc => ⟨(hr c hc).1, (hr c hc).2.1⟩
  | some e =>
      rintro c ⟨⟩
      decide

theorem unsigned_append (n : Numeral) (hr : EndsNumber rest) :
    Token.unsigned (n.chars ++ rest) = some (n.chars, rest) := by
  unfold Token.unsigned chars
  simp only [List.append_assoc]
  rw [mantissa_append n (head_exponentText n.exponent hr)]
  simp [exponent_append n.exponent hr, Token.before]

theorem exists_chars_eq (n : Numeral) : ∃ c r, n.chars = c :: r ∧ c.isDigit = true := by
  obtain ⟨c, r, h⟩ := List.exists_cons_of_ne_nil n.whole_ne
  exact ⟨c, r ++ (partText n.part ++ exponentText n.exponent), by simp [chars, h],
    n.isDigit_whole c (by simp [h])⟩

/-- The text of a numeral begins with a digit or a minus sign. -/
theorem exists_signed_eq (n : Numeral) (b : Bool) :
    ∃ c r, n.signed b = c :: r ∧ (c.isDigit = true ∨ c = '-') := by
  cases b with
  | true => exact ⟨'-', n.chars, rfl, .inr rfl⟩
  | false =>
      obtain ⟨c, r, hc, hdigit⟩ := exists_chars_eq n
      exact ⟨c, r, hc, .inl hdigit⟩

/-- The text of a numeral is one token. -/
theorem numberPiece_signed (n : Numeral) (b : Bool) (hr : EndsNumber rest) :
    Token.numberPiece (n.signed b ++ rest) = some (n.signed b, rest) := by
  cases b with
  | true => simp [signed, Token.numberPiece, unsigned_append n hr, Token.before]
  | false =>
      obtain ⟨c, r, hc, hdigit⟩ := exists_chars_eq n
      have hne : c ≠ '-' := by
        rintro rfl
        exact absurd hdigit (by decide)
      have h := unsigned_append n hr
      rw [hc] at h
      simp only [signed, Bool.false_eq_true, if_false, hc]
      rw [← h]
      unfold Token.numberPiece
      split
      · next heq => simp_all
      · rfl

end Lexing

section Reading

variable {ds rest : List Char}

theorem takeDigits_append (hds : ∀ c ∈ ds, c.isDigit = true)
    (hr : ∀ c ∈ rest.head?, c.isDigit = false) : takeDigits (ds ++ rest) = (ds, rest) := by
  rw [takeDigits, List.takeWhile_append_of_pos hds, List.dropWhile_append_of_pos hds]
  cases rest with
  | nil => simp
  | cons c r =>
      have := hr c rfl
      simp [this]

theorem isDigit_eq_false {c : Char} (h : Text.isDecimalDigit c = false) : c.isDigit = false := by
  refine Bool.eq_false_iff.mpr fun hc => ?_
  rw [Text.isDecimalDigit_of_isDigit hc] at h
  cases h

theorem endsNumber_nil : EndsNumber [] := by simp [EndsNumber]

theorem takeExponent_append (e : Option Int) (hr : EndsNumber rest) :
    takeExponent (exponentText e ++ rest) = (e, rest) := by
  cases e with
  | none =>
      cases rest with
      | nil => rfl
      | cons c r =>
          obtain ⟨-, -, he, hE⟩ := hr c rfl
          simp [exponentText, takeExponent, he, hE]
  | some e =>
      obtain ⟨c, ds, heq, hc, hne, hds, hvalue⟩ := exists_exponentText e
      have hrun := takeDigits_append hds fun c hc => isDigit_eq_false (hr c hc).1
      rcases hc with rfl | rfl <;>
        simp_all [exponentText, takeExponent, takeSign]

theorem takeExponent_exponentText (e : Option Int) :
    takeExponent (exponentText e) = (e, []) := by
  simpa using takeExponent_append e endsNumber_nil

theorem readDecimal_chars (n : Numeral) : readDecimal n.chars = some (n.decimal, []) := by
  have hexp : ∀ c ∈ (exponentText n.exponent).head?, c.isDigit = false := by
    cases n.exponent with
    | none => simp [exponentText]
    | some e =>
        rintro c ⟨⟩
        decide
  unfold readDecimal chars partText
  split
  · next hp =>
    rw [List.nil_append, takeDigits_append n.isDigit_whole hexp]
    cases he : n.exponent with
    | none => simp [exponentText, n.whole_ne, takeExponent, decimal, hp, he]
    | some e =>
        have := takeExponent_exponentText (some e)
        simp only [exponentText] at this
        simp [exponentText, n.whole_ne, decimal, hp, he, this]
  · next hp =>
    rw [takeDigits_append n.isDigit_whole (by rintro c ⟨⟩; decide)]
    simp [takeDigits_append n.isDigit_part hexp, n.whole_ne, takeExponent_exponentText, decimal]

theorem read?_signed (n : Numeral) (b : Bool) :
    read? (n.signed b) = some (ofDecimal b n.decimal) := by
  have hsign : takeSign (n.signed b) = (b, n.chars) := by
    cases b with
    | true => rfl
    | false =>
        obtain ⟨c, r, hc, hdigit⟩ := exists_chars_eq n
        simp only [signed, Bool.false_eq_true, if_false, hc]
        unfold takeSign
        split <;> simp_all [Char.isDigit]
  simp [read?, hsign, readDecimal_chars]

/-- The characters of numerals. -/
def IsNumeral (c : Char) : Prop := c.isDigit = true ∨ c ∈ ['.', 'e', '+', '-']

theorem isNumeral_of_mem_exponentText {e : Option Int} : ∀ c ∈ exponentText e, IsNumeral c := by
  cases e with
  | none => simp [exponentText]
  | some e =>
      obtain ⟨s, ds, heq, hs, -, hds, -⟩ := exists_exponentText e
      intro c hc
      simp only [exponentText, heq, List.mem_cons] at hc
      rcases hc with rfl | rfl | hc
      · simp [IsNumeral]
      · rcases hs with rfl | rfl <;> simp [IsNumeral]
      · exact .inl (hds c hc)

theorem isNumeral_of_mem_signed {b : Bool} {n : Numeral} : ∀ c ∈ n.signed b, IsNumeral c := by
  have hchars : ∀ c ∈ n.chars, IsNumeral c := by
    intro c hc
    simp only [chars, List.mem_append] at hc
    rcases hc with hc | hc | hc
    · exact .inl (n.isDigit_whole c hc)
    · unfold partText at hc
      split at hc
      · simp at hc
      · rcases List.mem_cons.mp hc with rfl | hc
        · simp [IsNumeral]
        · exact .inl (n.isDigit_part c hc)
    · exact isNumeral_of_mem_exponentText c hc
  cases b with
  | true => simpa [signed, IsNumeral] using hchars
  | false => exact hchars

theorem ascii_eq_self {c : Char} (hc : IsNumeral c) :
    (Text.digitValue? c).elim c (fun v => Char.ofNat (48 + v)) = c := by
  rcases hc with hc | hc
  · have hlow : 48 ≤ c.toNat := by
      simp only [Char.isDigit, Bool.and_eq_true, decide_eq_true_eq] at hc
      exact hc.1
    rw [Text.digitValue?_eq_some hc, Option.elim_some, Nat.add_sub_cancel' hlow,
      Char.ofNat_toNat]
  · simp only [List.mem_cons, List.not_mem_nil, or_false] at hc
    rcases hc with rfl | rfl | rfl | rfl <;> decide

/-- A numeral is written in ASCII. -/
theorem asciiDigits_signed (n : Numeral) (b : Bool) :
    Text.asciiDigits (n.signed b) = n.signed b :=
  (List.map_congr_left fun c hc => ascii_eq_self (isNumeral_of_mem_signed c hc)).trans
    (List.map_id _)

end Reading

section Layouts

theorem isDigit_replicate_zero {k : Nat} : ∀ c ∈ List.replicate k '0', c.isDigit = true := by
  intro c hc
  rw [List.eq_of_mem_replicate hc]
  decide

theorem digitsValue_zeros (k : Nat) (ds : List Char) :
    digitsValue (List.replicate k '0' ++ ds) = digitsValue ds := by
  rw [digitsValue, Nat.ofDigitChars_append, Nat.ofDigitChars_replicate_zero, Nat.mul_zero]
  rfl

/-- Each zero behind digits makes ten times as much. -/
theorem digitsValue_append_zeros (ds : List Char) (k : Nat) :
    digitsValue (ds ++ List.replicate k '0') = 10 ^ k * digitsValue ds := by
  rw [digitsValue, Nat.ofDigitChars_append, Nat.ofDigitChars_replicate_zero]
  rfl

section Places

variable {ds : List Char} (hne : ds ≠ []) (hds : ∀ c ∈ ds, c.isDigit = true)
include hne hds

/-- Digits behind zeros behind the point. -/
theorem exists_numeral_before (k : Nat) :
    ∃ n : Numeral, n.chars = '0' :: '.' :: (List.replicate k '0' ++ ds) ∧
      n.decimal.value = digitsValue ds * 10 ^ (-k - ds.length : ℤ) := by
  refine ⟨⟨['0'], List.replicate k '0' ++ ds, none, by simp, by simp, ?_⟩, ?_, ?_⟩
  · exact fun c hc => (List.mem_append.mp hc).elim (isDigit_replicate_zero c) (hds c)
  · simp [chars, partText, exponentText, hne]
  · have hvalue : digitsValue (['0'] ++ (List.replicate k '0' ++ ds)) = digitsValue ds :=
      digitsValue_zeros (k + 1) ds
    rw [Decimal.value_eq, decimal, hvalue]
    congr 2
    simp
    omega

/-- Digits with the point among them. -/
theorem exists_numeral_among {k : Nat} (hk : 0 < k) (hlt : k < ds.length) :
    ∃ n : Numeral, n.chars = ds.take k ++ '.' :: ds.drop k ∧
      n.decimal.value = digitsValue ds * 10 ^ (k - ds.length : ℤ) := by
  have htake : ds.take k ≠ [] := by
    simp only [ne_eq, List.take_eq_nil_iff, not_or]
    exact ⟨by omega, hne⟩
  have hdrop : ds.drop k ≠ [] := by
    simpa using hlt
  refine ⟨⟨ds.take k, ds.drop k, none, htake, fun c hc => hds c (List.mem_of_mem_take hc),
    fun c hc => hds c (List.mem_of_mem_drop hc)⟩,
    by simp [chars, partText, exponentText, hdrop], ?_⟩
  rw [Decimal.value_eq, decimal, List.take_append_drop]
  congr 2
  simp
  omega

/-- Digits with zeros up to the point. -/
theorem exists_numeral_behind (k : Nat) :
    ∃ n : Numeral, n.chars = ds ++ List.replicate k '0' ++ ['.', '0'] ∧
      n.decimal.value = digitsValue ds * 10 ^ k := by
  refine ⟨⟨ds ++ List.replicate k '0', ['0'], none, by simp [hne], ?_, by simp⟩,
    by simp [chars, partText, exponentText], ?_⟩
  · exact fun c hc => (List.mem_append.mp hc).elim (hds c) (isDigit_replicate_zero c)
  · have hvalue : digitsValue (ds ++ List.replicate k '0' ++ ['0']) =
        10 ^ (k + 1) * digitsValue ds := by
      rw [List.append_assoc, ← digitsValue_append_zeros, List.replicate_succ']
    rw [Decimal.value_eq, decimal, hvalue]
    push_cast
    simp only [Option.getD_none, List.length_singleton, Nat.cast_one, zero_sub, zpow_neg_one,
      pow_succ]
    field_simp

/-- Digits before an exponent, the point behind the first one. -/
theorem exists_numeral_scientific (point : Int) :
    ∃ n : Numeral, n.chars = ds.take 1 ++ partText (ds.drop 1) ++ exponentText (some (point - 1)) ∧
      n.decimal.value = digitsValue ds * 10 ^ (point - ds.length) := by
  obtain ⟨d, r, rfl⟩ := List.exists_cons_of_ne_nil hne
  refine ⟨⟨[d], r, some (point - 1), by simp, by simpa using hds d (by simp),
    fun c hc => hds c (List.mem_cons_of_mem _ hc)⟩, by simp [chars], ?_⟩
  rw [Decimal.value_eq, decimal]
  congr 2
  simp
  omega

/-- Digits laid out around a point are a numeral of the same value. -/
theorem exists_numeral_layout (point : Int) :
    ∃ n : Numeral, n.chars = Decimal.layout ds point ∧
      n.decimal.value = digitsValue ds * 10 ^ (point - ds.length) := by
  unfold Decimal.layout
  split_ifs with hrange hpoint hinside
  · obtain ⟨k, rfl⟩ : ∃ k : Nat, point = -k := ⟨(-point).toNat, by omega⟩
    simpa using exists_numeral_before hne hds k
  · obtain ⟨k, rfl⟩ := Int.eq_ofNat_of_zero_le (not_le.mp hpoint).le
    exact exists_numeral_among hne hds (by omega) hinside
  · obtain ⟨k, rfl⟩ : ∃ k : Nat, point = ds.length + k :=
      ⟨point.toNat - ds.length, by omega⟩
    have hk : ((ds.length : ℤ) + k).toNat - ds.length = k := by omega
    simpa [hk] using exists_numeral_behind hne hds k
  · have h := exists_numeral_scientific hne hds point
    obtain ⟨d, r, rfl⟩ := List.exists_cons_of_ne_nil hne
    cases r <;> simpa [partText, exponentText] using h

end Places

theorem exists_numeral_text (d : Decimal) :
    ∃ n : Numeral, n.chars = d.text ∧ n.decimal.value = d.value := by
  obtain ⟨n, hchars, hvalue⟩ := exists_numeral_layout Nat.toDigits_ne_nil
    (isDigit_digitsOf d.trim.digits) ((Decimal.digitsOf d.trim.digits).length + d.trim.exponent)
  refine ⟨n, hchars, ?_⟩
  rw [hvalue, ← d.value_trim, Decimal.value_eq]
  congr 1
  · exact_mod_cast digitsValue_digitsOf _
  · congr 1
    simp only [Decimal.digitsOf]
    omega

/-- The text of a double other than zero is a numeral that is read as the double. -/
theorem exists_numeral_written {q : ℚ} (hq : q ≠ 0) (h : ofRat q = .finite q) :
    ∃ (n : Numeral) (b : Bool), n.chars = (Decimal.shortest (magnitude q)).text ∧
      (Number.finite q).written = n.signed b ∧ ofDecimal b n.decimal = .finite q := by
  have hround := (of_ofRat hq h).1
  obtain ⟨n, hchars, hvalue⟩ := exists_numeral_text (Decimal.shortest (magnitude q))
  refine ⟨n, decide (q < 0), hchars, ?_, ofDecimal_of_roundMagnitude hq h ?_⟩
  · by_cases hneg : q < 0
    · have : magnitude q = -q := by simp [magnitude, hneg]
      simp [written, hq, hneg, signed, hchars, this]
    · have : magnitude q = q := by simp [magnitude, hneg]
      simp [written, hq, hneg, signed, hchars, this]
  · rw [hvalue, Decimal.roundMagnitude_shortest (magnitude_pos hq) hround]

/-- The text of an integer that is a double is a numeral that is read as it. -/
theorem exists_numeral_ofInt {k : Int} (h : ofRat k = .finite k) :
    ∃ (n : Numeral) (b : Bool),
      Decimal.ofInt k = n.signed b ∧ ofDecimal b n.decimal = .finite k := by
  let n : Numeral :=
    ⟨Decimal.digitsOf k.natAbs, [], none, Nat.toDigits_ne_nil, isDigit_digitsOf _, by simp⟩
  have hn : n.decimal = ⟨k.natAbs, 0⟩ := by simp [n, decimal, digitsValue_digitsOf]
  have hchars : n.chars = Decimal.digitsOf k.natAbs := by simp [n, chars, partText, exponentText]
  refine ⟨n, decide (k < 0), ?_, ?_⟩
  · by_cases hneg : k < 0 <;> simp [Decimal.ofInt, hneg, signed, hchars]
  by_cases hk : k = 0
  · simp [hn, hk, ofDecimal, zero]
  have hq : (k : ℚ) ≠ 0 := by exact_mod_cast hk
  have hvalue : n.decimal.value = magnitude k := by
    rw [hn, Decimal.value_eq, zpow_zero, mul_one, Nat.cast_natAbs, magnitude]
    split
    · next hneg => rw [abs_of_neg (by exact_mod_cast hneg), Int.cast_neg]
    · next hneg => rw [abs_of_nonneg (by exact_mod_cast not_lt.mp hneg)]
  have hround : roundMagnitude n.decimal.value = magnitude k := by
    rw [hvalue]
    exact (of_ofRat hq h).1
  simpa using ofDecimal_of_roundMagnitude hq h hround

/-- The text of a finite double is a numeral that is read as the double, the zero with a minus
sign as the other one. -/
theorem exists_numeral_brief {x : Number} (hx : x.isFinite = true) (hd : x.IsDouble) :
    ∃ (n : Numeral) (b : Bool), x.brief = n.signed b ∧ ofDecimal b n.decimal = x.plain := by
  cases x with
  | nan m => cases hx
  | negInf => cases hx
  | posInf => cases hx
  | negZero =>
      obtain ⟨n, b, hchars, hvalue⟩ := exists_numeral_ofInt (k := 0) (by simp [ofRat, zero])
      exact ⟨n, b, hchars, by simpa [plain, zero] using hvalue⟩
  | finite q =>
      have h : ofRat q = .finite q := hd
      by_cases hwhole : magnitude q < pow10 16 ∧ q.den = 1
      · have hq : ((q.num : ℤ) : ℚ) = q := Rat.coe_int_num_of_den_eq_one hwhole.2
        obtain ⟨n, b, hchars, hvalue⟩ := exists_numeral_ofInt (k := q.num) (by rwa [hq])
        exact ⟨n, b, by simp [brief, value?, hwhole, ← hchars], by rw [hvalue, hq]; rfl⟩
      · have hq : q ≠ 0 := by
          rintro rfl
          exact hwhole (by decide +kernel)
        obtain ⟨n, b, -, hchars, hvalue⟩ := exists_numeral_written hq h
        exact ⟨n, b, by simp [brief, value?, hwhole, hchars], hvalue⟩

end Layouts

end Numeral
end Eligibility
