import Eligibility.Json.Printer
import Eligibility.Json.Reader
import Eligibility.Proofs.Attempt
import Eligibility.Proofs.Numerals
import Eligibility.Proofs.Quoting
/-!
# JSON texts are read back

**Numbers.**  A finite double is written with a point or an exponent, and without a zero
before another digit; so its text is read as a number with a fraction, and the zero with a
minus sign keeps it.  An integer is written by its digits alone, and is read unless there
are too many of them.

**Values.**  The first character of a value tells its kind, and what stands behind a value
belongs to no number.  The induction follows the value; the bound on the steps is the length
of its text.

**Results.**
* `exists_fraction_written`, `readNumber_signed`, `readNumber_ofInt`: numbers.
* `readScalar_scalarText`, `readsBack`: scalars, and values of any kind.
* `read_compact`: a value is read from its compact text.
-/

namespace Eligibility
open Number Rounding

section Fractions

/-- A numeral of a number with a fraction: no zero stands before another digit, and there is a
point or an exponent. -/
structure Numeral.IsFraction (n : Numeral) : Prop where
  whole : n.whole = ['0'] ∨ n.whole.head? ≠ some '0'
  fraction : n.part ≠ [] ∨ n.exponent.isSome = true

theorem Decimal.head_digitsOf {n : Nat} (hn : n ≠ 0) : (digitsOf n).head? ≠ some '0' := by
  induction n using Nat.strong_induction_on with
  | h n ih =>
      rcases lt_or_ge n 10 with h | h
      · rw [digitsOf, Nat.toDigits_of_lt_base h]
        interval_cases n
        · exact absurd rfl hn
        all_goals decide
      · rw [digitsOf, Nat.toDigits_of_base_le (by decide) h,
          List.head?_append_of_ne_nil _ Nat.toDigits_ne_nil]
        exact ih (n / 10) (by omega) (by omega)

/-- Digits laid out around a point: a zero before it stands alone, and the point or an exponent is
there. -/
theorem Decimal.layout_spec {ds : List Char} (hne : ds ≠ []) (hhead : ds.head? ≠ some '0')
    (point : Int) :
    ((∃ r, layout ds point = '0' :: '.' :: r) ∨ (layout ds point).head? ≠ some '0') ∧
      ∃ c ∈ layout ds point, c.isDigit = false := by
  obtain ⟨d, r, rfl⟩ := List.exists_cons_of_ne_nil hne
  unfold layout
  split_ifs with hrange hpoint hinside
  · exact ⟨.inl ⟨_, rfl⟩, '.', by simp, by decide⟩
  · obtain ⟨k, hk⟩ := Nat.exists_eq_succ_of_ne_zero (show point.toNat ≠ 0 by omega)
    exact ⟨.inr (by simpa [hk] using hhead), '.', by simp, by decide⟩
  · exact ⟨.inr (by simpa using hhead), '.', by simp, by decide⟩
  · cases r with
    | nil => exact ⟨.inr (by simpa using hhead), 'e', by simp, by decide⟩
    | cons x r => exact ⟨.inr (by simpa using hhead), '.', by simp, by decide⟩

namespace Numeral

theorem isFraction_of_chars {n : Numeral}
    (hhead : (∃ r, n.chars = '0' :: '.' :: r) ∨ n.chars.head? ≠ some '0')
    (hmark : ∃ c ∈ n.chars, c.isDigit = false) : n.IsFraction := by
  obtain ⟨w, ws, hw⟩ := List.exists_cons_of_ne_nil n.whole_ne
  constructor
  · rcases hhead with ⟨r, hr⟩ | hne
    · rw [chars, hw, List.cons_append, List.cons.injEq] at hr
      obtain ⟨rfl, hr⟩ := hr
      cases ws with
      | nil => exact .inl hw
      | cons x xs =>
          -- the point is no digit
          have hx := n.isDigit_whole x (by simp [hw])
          rw [List.cons_append, List.cons.injEq] at hr
          rw [hr.1] at hx
          cases hx
    · exact .inr (by simpa [chars, hw] using hne)
  · by_contra hnone
    obtain ⟨hpart, hexponent⟩ : n.part = [] ∧ n.exponent = none := by simpa using hnone
    obtain ⟨c, hc, hdigit⟩ := hmark
    have hc : c ∈ n.whole := by simpa [chars, hpart, hexponent, partText, exponentText] using hc
    rw [n.isDigit_whole c hc] at hdigit
    cases hdigit

theorem isFraction_of_text {n : Numeral} {d : Decimal} (hd : d.value ≠ 0)
    (h : n.chars = d.text) : n.IsFraction := by
  have hdigits : d.trim.digits ≠ 0 := by
    intro hzero
    rw [← d.value_trim, Decimal.value_eq, hzero] at hd
    simp at hd
  obtain ⟨hhead, hmark⟩ := Decimal.layout_spec Nat.toDigits_ne_nil (Decimal.head_digitsOf hdigits)
    ((Decimal.digitsOf d.trim.digits).length + d.trim.exponent)
  exact isFraction_of_chars (h ▸ hhead) (h ▸ hmark)

end Numeral

/-- The text of a finite double is a numeral with a fraction that is read as the double. -/
theorem exists_fraction_written {x : Number} (hx : x.isFinite = true) (hd : x.IsDouble) :
    ∃ (n : Numeral) (b : Bool), n.IsFraction ∧ x.written = n.signed b ∧
      ofDecimal b n.decimal = x := by
  let zeros : Numeral := ⟨['0'], ['0'], none, by simp, by simp, by simp⟩
  have hzeros : zeros.IsFraction := ⟨.inl rfl, .inl (List.cons_ne_nil _ _)⟩
  cases x with
  | nan m => cases hx
  | negInf => cases hx
  | posInf => cases hx
  | negZero => exact ⟨zeros, true, hzeros, rfl, by decide⟩
  | finite q =>
      by_cases hq : q = 0
      · subst hq
        exact ⟨zeros, false, hzeros, rfl, by decide⟩
      · obtain ⟨n, b, hchars, hwritten, hvalue⟩ := Numeral.exists_numeral_written hq hd
        refine ⟨n, b, Numeral.isFraction_of_text (fun hzero => ?_) hchars, hwritten, hvalue⟩
        have hround := Decimal.roundMagnitude_shortest (magnitude_pos hq) (of_ofRat hq hd).1
        rw [hzero, roundMagnitude_zero] at hround
        exact (magnitude_pos hq).ne hround

end Fractions

namespace Json
open Text Numeral

section Numbers

variable {rest : List Char}

theorem takeWhole_append {ds : List Char} (hne : ds ≠ []) (hds : ∀ c ∈ ds, c.isDigit = true)
    (hzero : ds = ['0'] ∨ ds.head? ≠ some '0') (hr : ∀ c ∈ rest.head?, c.isDigit = false) :
    takeWhole (ds ++ rest) = some (ds, rest) := by
  rcases hzero with rfl | hzero
  · rfl
  · obtain ⟨d, r, rfl⟩ := List.exists_cons_of_ne_nil hne
    have hd : d.isDigit = true := hds d List.mem_cons_self
    have hzero : d ≠ '0' := by simpa using hzero
    have htake := takeDigits_append hds hr
    rw [List.cons_append] at htake ⊢
    rw [takeWhole.eq_2 _ _ hzero, if_pos hd, htake]

theorem takeFraction_eq_none (hr : ∀ c ∈ rest.head?, c ≠ '.') : takeFraction rest = none := by
  cases rest with
  | nil => rfl
  | cons c r => 
      have := hr c rfl
      unfold takeFraction
      split
      · simp_all
      · rfl

theorem takeFraction_append {ds : List Char} (hne : ds ≠ []) (hds : ∀ c ∈ ds, c.isDigit = true)
    (hr : ∀ c ∈ rest.head?, c.isDigit = false) :
    takeFraction ('.' :: (ds ++ rest)) = some (ds, rest) := by
  obtain ⟨d, r, rfl⟩ := List.exists_cons_of_ne_nil hne
  have hd : d.isDigit = true := hds d List.mem_cons_self
  have htake := takeDigits_append hds hr
  simp only [List.cons_append] at htake ⊢
  simp [takeFraction, hd, htake]

/-- A sign before a digit is taken for what it is. -/
theorem sign_of_digits {ds : List Char} {c : Char} {r : List Char} (hds : ds = c :: r)
    (hc : c.isDigit = true) (b : Bool) (rest : List Char) :
    (((if b then '-' :: ds else ds) ++ rest).head? == some '-') = b ∧
      (if b then ((if b then '-' :: ds else ds) ++ rest).tail
        else (if b then '-' :: ds else ds) ++ rest) = ds ++ rest := by
  subst hds
  have hne : c ≠ '-' := by
    rintro rfl
    exact absurd hc (by decide)
  cases b <;> simp [hne]

/-- The text of a number with a fraction is read as the double nearest to it. -/
theorem readNumber_signed {n : Numeral} (hn : n.IsFraction) (b : Bool) (hr : EndsNumber rest) :
    readNumber (n.signed b ++ rest) = .ok (float (ofDecimal b n.decimal), rest) := by
  obtain ⟨c, r, hc, hdigit⟩ := exists_chars_eq n
  obtain ⟨hnegative, htail⟩ := sign_of_digits hc hdigit b rest
  have hexponent := head_exponentText n.exponent hr
  have hafter : ∀ c ∈ (exponentText n.exponent ++ rest).head?, c.isDigit = false := fun c hc =>
    isDigit_eq_false (hexponent c hc).1
  have hexp := takeExponent_append n.exponent hr
  rw [signed, readNumber]
  simp only [hnegative, htail]
  rw [chars, List.append_assoc, List.append_assoc]
  by_cases hpart : n.part = []
  · have hwhole := takeWhole_append n.whole_ne n.isDigit_whole hn.whole hafter
    have hfraction := takeFraction_eq_none fun c hc => (hexponent c hc).2
    have hsome : n.exponent.isSome = true := hn.fraction.resolve_left (not_not_intro hpart)
    simp [partText, hpart, hwhole, hfraction, hexp, hsome, decimal]
  · have hwhole : takeWhole (n.whole ++ '.' :: (n.part ++ (exponentText n.exponent ++ rest))) =
        some (n.whole, '.' :: (n.part ++ (exponentText n.exponent ++ rest))) :=
      takeWhole_append n.whole_ne n.isDigit_whole hn.whole (by rintro c ⟨⟩; decide)
    have hfraction := takeFraction_append hpart n.isDigit_part hafter
    simp [partText, hpart, hwhole, hfraction, hexp, decimal]

theorem exists_digitsOf_eq (n : Nat) :
    ∃ c r, Decimal.digitsOf n = c :: r ∧ c.isDigit = true := by
  obtain ⟨c, r, hc⟩ := List.exists_cons_of_ne_nil (Nat.toDigits_ne_nil (n := n) (b := 10))
  exact ⟨c, r, hc, isDigit_digitsOf n c (by rw [Decimal.digitsOf, hc]; simp)⟩

theorem ofInt_eq (n : Int) : Decimal.ofInt n =
    if decide (n < 0) then '-' :: Decimal.digitsOf n.natAbs else Decimal.digitsOf n.natAbs := by
  simp [Decimal.ofInt]

/-- The text of an integer is read as the integer, unless it has too many digits. -/
theorem readNumber_ofInt {n : Int} (hn : n.natAbs < 10 ^ digitLimit)
    (hr : EndsNumber rest) : readNumber (Decimal.ofInt n ++ rest) = .ok (int n, rest) := by
  have hlength : (Decimal.digitsOf n.natAbs).length ≤ digitLimit :=
    (Nat.length_toDigits_le_iff (by decide) (by decide)).mpr hn
  have hdigits := isDigit_digitsOf n.natAbs
  have hvalue := digitsValue_digitsOf n.natAbs
  have hne : Decimal.digitsOf n.natAbs ≠ [] := Nat.toDigits_ne_nil
  have hzero : Decimal.digitsOf n.natAbs = ['0'] ∨
      (Decimal.digitsOf n.natAbs).head? ≠ some '0' := by
    by_cases hzero : n.natAbs = 0
    · exact .inl (by rw [hzero]; rfl)
    · exact .inr (Decimal.head_digitsOf hzero)
  obtain ⟨c, r, hc, hdigit⟩ := exists_digitsOf_eq n.natAbs
  rw [ofInt_eq, readNumber]
  generalize Decimal.digitsOf n.natAbs = ds at *
  obtain ⟨hnegative, htail⟩ := sign_of_digits hc hdigit (decide (n < 0)) rest
  have hwhole := takeWhole_append hne hdigits hzero fun c hc => isDigit_eq_false (hr c hc).1
  have hfraction := takeFraction_eq_none fun c hc => (hr c hc).2.1
  have hexp := takeExponent_append none hr
  simp only [exponentText, List.nil_append] at hexp
  simp only [hnegative, htail]
  have hback : (if n < 0 then -(n.natAbs : Int) else n.natAbs) = n := by
    split <;> omega
  simpa [hwhole, hfraction, hexp, hvalue, not_lt.mpr hlength] using hback

end Numbers

section Scalars

variable {rest : List Char}

/-- A value that its text gives back: its numbers are finite doubles, and no key comes twice. -/
inductive IsPortable : Json → Prop where
  | null : IsPortable null
  | bool (b : Bool) : IsPortable (bool b)
  | int (n : Int) : IsPortable (int n)
  | float {x : Number} (hx : x.isFinite = true) (hd : x.IsDouble) : IsPortable (float x)
  | str (s : String) : IsPortable (str s)
  | arr {js : List Json} (hjs : ∀ j ∈ js, IsPortable j) : IsPortable (arr js)
  | obj {fs : List (String × Json)} (hkeys : (fs.map (·.1)).Nodup)
      (hfs : ∀ f ∈ fs, IsPortable f.2) : IsPortable (obj fs)

mutual

/-- The integers in a JSON value. -/
def integers : Json → List Int
  | int n => [n]
  | arr js => integersOfItems js
  | obj fs => integersOfFields fs
  | _ => []

/-- The integers in the items of a list. -/
def integersOfItems : List Json → List Int
  | [] => []
  | j :: r => integers j ++ integersOfItems r

/-- The integers in the values of fields. -/
def integersOfFields : List (String × Json) → List Int
  | [] => []
  | (_, j) :: r => integers j ++ integersOfFields r

end

theorem integersOfItems_eq (js : List Json) : integersOfItems js = js.flatMap integers := by
  induction js with
  | nil => rfl
  | cons j r ih => rw [integersOfItems, ih, List.flatMap_cons]

theorem integersOfFields_eq (fs : List (String × Json)) :
    integersOfFields fs = fs.flatMap fun f => integers f.2 := by
  induction fs with
  | nil => rfl
  | cons f r ih => rw [integersOfFields, ih, List.flatMap_cons]

/-- Whether every integer in a JSON value has few enough digits to be read. -/
def HasShortIntegers (j : Json) : Prop := ∀ n ∈ j.integers, n.natAbs < 10 ^ digitLimit

theorem hasShortIntegers_arr {js : List Json} :
    (arr js).HasShortIntegers ↔ ∀ j ∈ js, j.HasShortIntegers := by
  simp only [HasShortIntegers, integers, integersOfItems_eq, List.mem_flatMap]
  exact ⟨fun h j hj n hn => h n ⟨j, hj, hn⟩, fun h n ⟨j, hj, hn⟩ => h j hj n hn⟩

theorem hasShortIntegers_obj {fs : List (String × Json)} :
    (obj fs).HasShortIntegers ↔ ∀ f ∈ fs, f.2.HasShortIntegers := by
  simp only [HasShortIntegers, integers, integersOfFields_eq, List.mem_flatMap]
  exact ⟨fun h f hf n hn => h n ⟨f, hf, hn⟩, fun h n ⟨f, hf, hn⟩ => h f hf n hn⟩

theorem readWord_eq_none {cs : List Char} {ws : List (String × Json)}
    (h : ∀ w ∈ ws, w.1.toList.isPrefixOf cs = false) : readWord cs ws = none := by
  induction ws with
  | nil => rfl
  | cons w r ih =>
      rw [readWord, h w List.mem_cons_self]
      exact ih fun x hx => h x (List.mem_cons_of_mem _ hx)

/-- No word begins with a digit, with or without a minus sign before it. -/
theorem words_spec : ∀ w ∈ words, ∃ c d r, w.1.toList = c :: d :: r ∧
    c.isDigit = false ∧ (c = '-' → d.isDigit = false) := by
  intro w hw
  simp only [words, List.mem_cons, List.not_mem_nil, or_false] at hw
  rcases hw with rfl | rfl | rfl | rfl | rfl | rfl <;> exact ⟨_, _, _, rfl, by decide, by decide⟩

theorem readScalar_number {ds : List Char} {c : Char} {r : List Char} (hds : ds = c :: r)
    (hc : c.isDigit = true) (b : Bool) : readScalar ((if b then '-' :: ds else ds) ++ rest) =
      readNumber ((if b then '-' :: ds else ds) ++ rest) := by
  subst hds
  have hquote : c ≠ '"' := by
    rintro rfl
    cases hc
  have hword : readWord ((if b then '-' :: c :: r else c :: r) ++ rest) words = none := by
    refine readWord_eq_none fun w hw => ?_
    obtain ⟨d, e, t, heq, hd, he⟩ := words_spec w hw
    rw [heq, Bool.eq_false_iff]
    intro hprefix
    cases b with
    | false =>
        obtain ⟨rfl, -⟩ : d = c ∧ _ := by simpa using hprefix
        rw [hd] at hc
        cases hc
    | true =>
        obtain ⟨rfl, rfl, -⟩ : d = '-' ∧ e = c ∧ _ := by simpa using hprefix
        rw [he rfl] at hc
        cases hc
  unfold readScalar
  split
  · next heq => cases b <;> simp_all
  · rw [hword]

theorem numberText_of_isFinite {x : Number} (hx : x.isFinite = true) :
    numberText x = x.written := by
  cases x <;> first | rfl | cases hx

/-- What a value can begin with: no blank, nothing that ends a list or an object, and no byte
order mark. -/
def IsHead (c : Char) : Prop := isGap c = false ∧ c ∉ [']', '}', Char.ofNat 0xfeff]

instance : DecidablePred IsHead := fun c =>
  inferInstanceAs (Decidable (isGap c = false ∧ c ∉ [']', '}', Char.ofNat 0xfeff]))

theorem isHead_of_isDigit {c : Char} (hc : c.isDigit = true) : IsHead c ∧ c ∉ ['[', '{'] := by
  have hne : ∀ x ∈ [' ', '\t', '\n', '\r', ']', '}', Char.ofNat 0xfeff, '[', '{'], c ≠ x := by
    rintro x hx rfl
    fin_cases hx <;> cases hc
  simp only [List.forall_mem_cons] at hne
  simp [IsHead, isGap, hne]

/-- A scalar is read from its text. -/
theorem readScalar_scalarText {j : Json} (hj : j.IsPortable) (hs : j.isScalar = true)
    (hi : j.HasShortIntegers) (hr : EndsNumber rest) :
    readScalar (scalarText j ++ rest) = .ok (j, rest) := by
  cases hj with
  | null => rfl
  | bool b => cases b <;> rfl
  | int n =>
      obtain ⟨c, r, hc, hdigit⟩ := exists_digitsOf_eq n.natAbs
      rw [scalarText, ofInt_eq, readScalar_number hc hdigit, ← ofInt_eq]
      exact readNumber_ofInt (hi n (by simp [integers])) hr
  | float hx hd =>
      obtain ⟨n, b, hfraction, hwritten, hvalue⟩ := exists_fraction_written hx hd
      obtain ⟨c, r, hc, hdigit⟩ := exists_chars_eq n
      rw [scalarText, numberText_of_isFinite hx, hwritten, signed, readScalar_number hc hdigit,
        ← signed, readNumber_signed hfraction b hr, hvalue]
  | str s => simp [scalarText, quoteChars, readScalar, unquote_escape]
  | arr hjs => cases hs
  | obj hkeys hfs => cases hs

/-- The text of a scalar opens neither a list nor an object. -/
theorem exists_scalarText_eq {j : Json} (hj : j.IsPortable) (hs : j.isScalar = true) :
    ∃ c r, scalarText j = c :: r ∧ IsHead c ∧ c ∉ ['[', '{'] := by
  have hsigned : ∀ {ds : List Char} {c : Char} {r : List Char} (b : Bool), ds = c :: r →
      c.isDigit = true → ∃ c r, (if b then '-' :: ds else ds) = c :: r ∧ IsHead c ∧
        c ∉ ['[', '{'] := by
    rintro _ c r b rfl hc
    cases b with
    | true => exact ⟨'-', _, rfl, by decide⟩
    | false => exact ⟨c, r, rfl, isHead_of_isDigit hc⟩
  cases hj with
  | null => exact ⟨_, _, rfl, by decide⟩
  | bool b => cases b <;> exact ⟨_, _, rfl, by decide⟩
  | int n =>
      obtain ⟨c, r, hc, hdigit⟩ := exists_digitsOf_eq n.natAbs
      rw [scalarText, ofInt_eq]
      exact hsigned _ hc hdigit
  | float hx hd =>
      obtain ⟨n, b, -, hwritten, -⟩ := exists_fraction_written hx hd
      obtain ⟨c, r, hc, hdigit⟩ := exists_chars_eq n
      rw [scalarText, numberText_of_isFinite hx, hwritten, signed]
      exact hsigned b hc hdigit
  | str s => exact ⟨_, _, rfl, by decide⟩
  | arr hjs => cases hs
  | obj hkeys hfs => cases hs

end Scalars

section Compact

variable {rest : List Char}

theorem compactChars_of_isScalar {j : Json} (hs : j.isScalar = true) :
    compactChars j = scalarText j := by
  cases j with
  | arr js => cases hs
  | obj fs => cases hs
  | _ => rw [compactChars] <;> simp

theorem exists_compactChars_eq {j : Json} (hj : j.IsPortable) :
    ∃ c r, compactChars j = c :: r ∧ IsHead c := by
  by_cases hs : j.isScalar = true
  · obtain ⟨c, r, heq, hc, -⟩ := exists_scalarText_eq hj hs
    exact ⟨c, r, by rw [compactChars_of_isScalar hs, heq], hc⟩
  · cases j with
    | arr js => exact ⟨_, _, by rw [compactChars], by decide⟩
    | obj fs => exact ⟨_, _, by rw [compactChars], by decide⟩
    | _ => exact absurd rfl hs

theorem skipGaps_cons {c : Char} {r : List Char} (hc : isGap c = false) :
    skipGaps (c :: r) = c :: r :=
  List.dropWhile_cons_of_neg (by simp [hc])

theorem skipGaps_compactChars {j : Json} (hj : j.IsPortable) (rest : List Char) :
    skipGaps (compactChars j ++ rest) = compactChars j ++ rest := by
  obtain ⟨c, r, heq, hc⟩ := exists_compactChars_eq hj
  rw [heq]
  exact skipGaps_cons hc.1

theorem skipGaps_blank (cs : List Char) : skipGaps (' ' :: cs) = skipGaps cs := rfl

/-- A value is read from its text, whatever stands behind it that belongs to no number, in as many
steps as the text has characters. -/
def ReadsBack (j : Json) : Prop :=
  ∀ (fuel : Nat) (rest : List Char), (compactChars j).length ≤ fuel → EndsNumber rest →
    readValue fuel (compactChars j ++ rest) = .ok (j, rest)

theorem endsNumber_of_mem {c : Char} (hc : c ∈ [',', ']', '}']) (cs : List Char) :
    EndsNumber (c :: cs) := by
  rintro _ ⟨⟩
  fin_cases hc <;> decide

theorem readsBack_scalar {j : Json} (hj : j.IsPortable) (hs : j.isScalar = true)
    (hi : j.HasShortIntegers) : j.ReadsBack := by
  intro fuel rest hfuel hr
  obtain ⟨c, r, heq, -, hc⟩ := exists_scalarText_eq hj hs
  obtain ⟨hlist, hobject⟩ : c ≠ '[' ∧ c ≠ '{' := by simpa using hc
  have hread := readScalar_scalarText hj hs hi hr
  rw [compactChars_of_isScalar hs] at hfuel ⊢
  rw [heq, List.cons_append] at hread ⊢
  cases fuel with
  | zero => simp [heq] at hfuel
  | succ fuel =>
      unfold readValue
      split
      · next heq => exact absurd (List.cons.inj heq).1 hlist
      · next heq => exact absurd (List.cons.inj heq).1 hobject
      · exact hread

theorem readItems_compactItems {js : List Json} : ∀ {x : Json} {fuel : Nat},
    (∀ j ∈ x :: js, j.IsPortable ∧ j.ReadsBack) →
    (compactChars x).length + (compactItems false js).length < fuel →
    readItems fuel (compactChars x ++ (compactItems false js ++ ']' :: rest)) =
      .ok (x :: js, rest)
  | _, 0, _, hfuel => absurd hfuel (Nat.not_lt_zero _)
  | x, fuel + 1, hjs, hfuel => by
      have hx := (hjs x List.mem_cons_self).2
      cases js with
      | nil =>
          have hx := hx fuel (']' :: rest) (by omega) (endsNumber_of_mem (by simp) rest)
          rw [compactItems, List.nil_append, readItems, hx]
          rfl
      | cons y js =>
          have hys := fun j hj => hjs j (List.mem_cons_of_mem x hj)
          have hlength : (compactItems false (y :: js)).length =
              (compactChars y).length + (compactItems false js).length + 2 := by
            simp [compactItems]
          have hy : readItems fuel _ = .ok (y :: js, rest) :=
            readItems_compactItems hys (by omega)
          have hgap := skipGaps_compactChars (hys y List.mem_cons_self).1
            (compactItems false js ++ ']' :: rest)
          have hx := hx fuel
            (',' :: ' ' :: (compactChars y ++ (compactItems false js ++ ']' :: rest))) (by omega)
            (endsNumber_of_mem (by simp) _)
          simp only [compactItems, Bool.false_eq_true, if_false, List.cons_append,
            List.nil_append, List.append_assoc]
          rw [readItems, hx]
          simp only [skipGaps_cons (show isGap ',' = false by decide), skipGaps_blank, hgap, hy]
          rfl

theorem readKey_quoteChars (k : String) {v : Json} (hv : v.IsPortable) :
    readKey (quoteChars k.toList ++ (':' :: ' ' :: (compactChars v ++ rest))) =
      .ok (k, compactChars v ++ rest) := by
  have hgap := skipGaps_compactChars hv rest
  simp only [quoteChars, List.cons_append, List.append_assoc, List.nil_append, readKey,
    unquote_escape, skipGaps_cons (show isGap ':' = false by decide), skipGaps_blank, hgap,
    String.ofList_toList]

theorem readFields_compactFields {fs : List (String × Json)} : ∀ {k : String} {v : Json}
    {fuel : Nat}, (∀ f ∈ (k, v) :: fs, f.2.IsPortable ∧ f.2.ReadsBack) →
    (compactChars v).length + (compactFields false fs).length < fuel →
    readFields fuel (quoteChars k.toList ++
      (':' :: ' ' :: (compactChars v ++ (compactFields false fs ++ '}' :: rest)))) =
      .ok ((k, v) :: fs, rest)
  | _, _, 0, _, hfuel => absurd hfuel (Nat.not_lt_zero _)
  | k, v, fuel + 1, hfs, hfuel => by
      obtain ⟨hportable, hv⟩ : v.IsPortable ∧ v.ReadsBack := hfs (k, v) List.mem_cons_self
      rw [readFields, readKey_quoteChars k hportable]
      cases fs with
      | nil =>
          have hv := hv fuel ('}' :: rest) (by omega) (endsNumber_of_mem (by simp) rest)
          rw [compactFields, List.nil_append]
          simp only [hv]
          rfl
      | cons f fs =>
          obtain ⟨l, w⟩ := f
          have hws := fun f hf => hfs f (List.mem_cons_of_mem (k, v) hf)
          have hlength : (compactChars w).length + (compactFields false fs).length + 2 ≤
              (compactFields false ((l, w) :: fs)).length := by
            simp [compactFields]
            omega
          have hw : readFields fuel _ = .ok ((l, w) :: fs, rest) :=
            readFields_compactFields hws (by omega)
          have hv := hv fuel (',' :: ' ' :: (quoteChars l.toList ++
            (':' :: ' ' :: (compactChars w ++ (compactFields false fs ++ '}' :: rest)))))
            (by omega) (endsNumber_of_mem (by simp) _)
          simp only [compactFields, Bool.false_eq_true, if_false, List.cons_append,
            List.nil_append, List.append_assoc, hv]
          simp only [skipGaps_cons (show isGap ',' = false by decide), skipGaps_blank]
          rw [quoteChars, List.cons_append, skipGaps_cons (by decide), ← List.cons_append,
            ← quoteChars, hw]
          rfl

theorem readValue_arr {x : Json} (hx : x.IsPortable) (fuel : Nat) (rest : List Char) :
    readValue (fuel + 1) ('[' :: (compactChars x ++ rest)) =
      (readItems fuel (compactChars x ++ rest)).map fun p => (arr p.1, p.2) := by
  obtain ⟨c, r, heq, hgap, hc⟩ := exists_compactChars_eq hx
  have hne : c ≠ ']' := by
    rintro rfl
    exact hc (by simp)
  rw [heq, List.cons_append, readValue, skipGaps_cons hgap]
  split
  · next heq => exact absurd (List.cons.inj heq).1 hne
  · rfl

theorem readValue_obj (k : String) (fuel : Nat) (rest : List Char) :
    readValue (fuel + 1) ('{' :: (quoteChars k.toList ++ rest)) =
      (readFields fuel (quoteChars k.toList ++ rest)).map fun p => (obj (ofPairs p.1), p.2) := by
  rw [quoteChars, List.cons_append, readValue, skipGaps_cons (by decide)]
  rfl

theorem put_of_not_mem {k : String} {v : Json} {fs : List (String × Json)}
    (h : k ∉ fs.map (·.1)) : put k v fs = fs ++ [(k, v)] := by
  induction fs with
  | nil => rfl
  | cons f r ih =>
      rw [List.map_cons, List.mem_cons, not_or] at h
      rw [put, if_neg (Ne.symm h.1), ih h.2, List.cons_append]

theorem ofPairs_of_nodup {fs : List (String × Json)} (h : (fs.map (·.1)).Nodup) :
    ofPairs fs = fs := by
  have hfold : ∀ (gs acc : List (String × Json)), ((acc ++ gs).map (·.1)).Nodup →
      gs.foldl (fun acc p => put p.1 p.2 acc) acc = acc ++ gs := by
    intro gs
    induction gs with
    | nil => simp
    | cons g r ih =>
        intro acc hacc
        have hg : g.1 ∉ acc.map (·.1) := by
          rw [List.map_append, List.map_cons] at hacc
          exact fun hmem => (List.disjoint_of_nodup_append hacc) hmem List.mem_cons_self
        rw [List.foldl_cons, put_of_not_mem hg, ih (acc ++ [g]) (by simpa using hacc),
          List.append_assoc, List.singleton_append]
  exact hfold fs [] h

theorem readsBack_arr {js : List Json} (hjs : ∀ j ∈ js, j.IsPortable ∧ j.ReadsBack) :
    (arr js).ReadsBack := by
  intro fuel rest hfuel hr
  cases fuel with
  | zero => simp [compactChars] at hfuel
  | succ fuel =>
      cases js with
      | nil => rfl
      | cons x js =>
          have hread : readItems fuel _ = .ok (x :: js, rest) :=
            readItems_compactItems hjs (by
              simp [compactChars, compactItems] at hfuel
              omega)
          have hopen := readValue_arr (hjs x List.mem_cons_self).1 fuel
            (compactItems false js ++ ']' :: rest)
          rw [hread] at hopen
          simpa [compactChars, compactItems] using hopen

theorem readsBack_obj {fs : List (String × Json)} (hkeys : (fs.map (·.1)).Nodup)
    (hfs : ∀ f ∈ fs, f.2.IsPortable ∧ f.2.ReadsBack) : (obj fs).ReadsBack := by
  intro fuel rest hfuel hr
  cases fuel with
  | zero => simp [compactChars] at hfuel
  | succ fuel =>
      cases fs with
      | nil => rfl
      | cons f fs =>
          obtain ⟨k, v⟩ := f
          have hread : readFields fuel _ = .ok ((k, v) :: fs, rest) :=
            readFields_compactFields hfs (by
              simp [compactChars, compactFields] at hfuel
              omega)
          have hopen := readValue_obj k fuel
            (':' :: ' ' :: (compactChars v ++ (compactFields false fs ++ '}' :: rest)))
          -- a later field would take the place of an earlier one with its key
          rw [hread, Attempt.map_ok, ofPairs_of_nodup hkeys] at hopen
          simpa [compactChars, compactFields] using hopen

/-- Every value that its text gives back is read from it. -/
theorem readsBack {j : Json} (hj : j.IsPortable) (hi : j.HasShortIntegers) : j.ReadsBack := by
  induction hj with
  | null => exact readsBack_scalar .null rfl hi
  | bool b => exact readsBack_scalar (.bool b) rfl hi
  | int n => exact readsBack_scalar (.int n) rfl hi
  | float hx hd => exact readsBack_scalar (.float hx hd) rfl hi
  | str s => exact readsBack_scalar (.str s) rfl hi
  | arr hjs ih =>
      exact readsBack_arr fun j hj => ⟨hjs j hj, ih j hj (hasShortIntegers_arr.mp hi j hj)⟩
  | obj hkeys hfs ih =>
      exact readsBack_obj hkeys fun f hf =>
        ⟨hfs f hf, ih f hf (hasShortIntegers_obj.mp hi f hf)⟩

/-- A value is read back from its compact text. -/
theorem read_compact {j : Json} (hj : j.IsPortable) (hi : j.HasShortIntegers) :
    read j.compact = .ok j := by
  obtain ⟨c, r, heq, hgap, hc⟩ := exists_compactChars_eq hj
  have hmark : c ≠ Char.ofNat 0xfeff := by
    rintro rfl
    exact hc (by simp)
  have hread := readsBack hj hi (2 * (compactChars j).length + 2) [] (by omega) endsNumber_nil
  rw [List.append_nil] at hread
  have hall : readAll (compactChars j) = .ok j := by
    have hskip : skipGaps (compactChars j) = compactChars j := by rw [heq, skipGaps_cons hgap]
    rw [readAll, hskip, hread, if_neg (by simpa [heq] using hmark)]
    rfl
  rw [compact, read, String.toList_ofList, hall]
  rfl

end Compact

end Json
end Eligibility
