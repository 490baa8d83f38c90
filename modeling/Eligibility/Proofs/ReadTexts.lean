import Eligibility.Proofs.FlatReading
/-!
# Rules that are read from texts

**Reading.**  A rule is read from some tokens and leaves those behind them.  It is read from the
same tokens whatever stands behind them, as long as the next token is the same, unless the bound on
the steps comes first.

**Rules.**  Each rule that is read has the shape of a comparison or of a logical rule, and no blanks
around its texts.  Its numbers are those of tokens, or the confidence is the one that is assumed.

**Levels.**  A parenthesis below the allowed levels makes a text too deep: the tokens up to it end
where a rule is due, since all of them are taken before.

**Results.**
* `reading_expression`: what is known of an expression that is read.
* `of_parseWithin`: the rules of a text that is read, and their levels.
-/

namespace Eligibility
namespace Rule

namespace Token

/-- Whether a piece and what follows it make up a text. -/
def Piece.IsOf (cs : List Char) (p : Piece) : Prop := p.1 ++ p.2 = cs

theorem digitRun_isOf (cs : List Char) : (digitRun cs).IsOf cs := List.takeWhile_append_dropWhile

theorem mantissa_isOf {cs : List Char} {p : Piece} (h : mantissa cs = some p) : p.IsOf cs := by
  have hwhole := digitRun_isOf cs
  unfold mantissa at h
  dsimp only at h
  split at h
  · next r hr =>
    split_ifs at h
    cases h
    have hpart := digitRun_isOf r
    simp only [Piece.IsOf, List.append_assoc, List.cons_append] at hpart hwhole ⊢
    rw [hpart, ← hr, hwhole]
  · split_ifs at h
    cases h
    exact hwhole

theorem exponent_isOf (cs : List Char) : (exponent cs).IsOf cs := by
  unfold exponent
  split
  · rfl
  · next c r =>
    split_ifs
    · dsimp only
      split_ifs
      · rfl
      · have h := fun s => digitRun_isOf s
        simp only [Piece.IsOf] at h
        split <;> simp [Piece.IsOf, h]
    · rfl

theorem unsigned_isOf {cs : List Char} {p : Piece} (h : unsigned cs = some p) : p.IsOf cs := by
  obtain ⟨m, hm, rfl⟩ := Option.map_eq_some_iff.mp h
  have hm := mantissa_isOf hm
  have he := exponent_isOf m.2
  simp only [Piece.IsOf, before, List.append_assoc] at he hm ⊢
  rw [he, hm]

theorem numberPiece_isOf {cs : List Char} {p : Piece} (h : numberPiece cs = some p) :
    p.IsOf cs := by
  unfold numberPiece at h
  split at h
  · obtain ⟨q, hq, rfl⟩ := Option.map_eq_some_iff.mp h
    have hq := unsigned_isOf hq
    simp only [Piece.IsOf, before, List.cons_append, List.nil_append] at hq ⊢
    rw [hq]
  · exact unsigned_isOf h

/-- What is taken for a token and is a parenthesis is a mark: every other class would begin with
another character. -/
theorem kind_of_lex {c d : Char} {k : TokenClass} {r rest : List Char}
    (h : lex (c :: r) = some (k, [d], rest)) (hd : d ∈ ['(', ')']) : k = .mark := by
  have hfacts : ∀ d ∈ ['(', ')'], IsPlainStart d ∧ d ∉ ['=', '!', '<', '>'] ∧
      startsIdentifier d = false := List.all_iff_forall_prop.mp (by decide)
  obtain ⟨hplain, hsign, hword⟩ := hfacts d hd
  rw [lex] at h
  split at h
  · obtain ⟨p, -, h⟩ := Option.map_eq_some_iff.mp h
    simp only [before, Prod.mk.injEq, List.cons_append, List.cons.injEq] at h
    exact absurd h.2.1.1.symm hplain.2.2.2.2.1
  split at h
  · obtain ⟨p, -, h⟩ := Option.map_eq_some_iff.mp h
    simp only [before, Prod.mk.injEq, List.cons_append, List.cons.injEq] at h
    exact absurd h.2.1.1.symm hplain.2.2.2.2.2
  split at h
  · next p hp =>
    cases h
    obtain ⟨rfl, rfl⟩ : d = c ∧ rest = r := by simpa [Piece.IsOf] using numberPiece_isOf hp
    rw [numberPiece_eq_none hplain] at hp
    cases hp
  split at h
  · next p hp =>
    cases h
    rw [signPiece.eq_def] at hp
    split at hp <;> cases hp <;> simp at hsign
  split at h
  · cases h
    rfl
  · obtain ⟨p, hp, h⟩ := Option.map_eq_some_iff.mp h
    cases h
    unfold wordPiece at hp
    dsimp only at hp
    split_ifs at hp with hc
    simp only [Option.some.injEq, Prod.mk.injEq, List.cons.injEq] at hp
    obtain ⟨⟨rfl, -⟩, -⟩ := hp
    rw [hword] at hc
    cases hc

/-- Whether the parentheses among tokens are marks. -/
def HasMarks (ts : List Token) : Prop := ∀ t ∈ ts, ∀ c ∈ ['(', ')'], t.text = [c] → t.kind = .mark

theorem HasMarks.lexeme_eq {ts : List Token} {t : Token} {c : Char} (h : HasMarks ts) (ht : t ∈ ts)
    (hc : c ∈ ['(', ')']) (htext : t.text = [c]) : t.lexeme = mark c := by
  rw [lexeme, h t ht c hc htext, htext, mark]

theorem hasMarks_splitFrom : ∀ {fuel position : Nat} {cs : List Char} {ts : List Token},
    splitFrom fuel position cs = .ok ts → HasMarks ts
  | fuel, position, [], ts, h => by
      cases fuel <;> cases h <;> exact List.forall_mem_nil _
  | 0, position, c :: r, ts, h => by cases h
  | fuel + 1, position, c :: r, ts, h => by
      rw [splitFrom] at h
      split_ifs at h
      · exact hasMarks_splitFrom h
      · split at h
        · cases h
        next k t rest hlex =>
          obtain ⟨us, hus, rfl⟩ := Attempt.map_eq_ok.mp h
          refine List.forall_mem_cons.mpr ⟨fun d hd htext => ?_, hasMarks_splitFrom hus⟩
          obtain rfl : t = [d] := htext
          exact kind_of_lex hlex hd

theorem hasMarks_split {cs : List Char} {ts : List Token} (h : split cs = .ok ts) : HasMarks ts :=
  hasMarks_splitFrom h

end Token

namespace Parser

open Schema

variable {stop : Nat} {d : Defaults} {id : Json}

section Heads

variable {o : Operator} {v : Option Operand}

/-- A head that is read with a given operator and operand, its confidence from some tokens or
assumed. -/
structure IsHeadFrom (d : Defaults) (o : Operator) (v : Option Operand) (ts : List Token)
    (h : Head) : Prop where
  operator : h.operator = o
  value : h.value = v
  trimmed : h.IsTrimmed
  confidence : (∃ x, h.confidence = some x ∧ IsStated ts x) ∨
    nullable number d.confidence = .ok h.confidence

theorem isHeadFrom_headOf {s : String} {a : Annotation} {ts : List Token} {h : Head}
    (ha : IsAnnotationOf ts a) (hh : headOf d id s o v a = .ok h) : IsHeadFrom d o v ts h := by
  obtain ⟨k, x, hk, hx, rfl⟩ := Checked.ap_eq_ok.mp hh
  obtain ⟨l, clause, hl, hclause, rfl⟩ := Checked.ap_eq_ok.mp hk
  obtain ⟨i, hi, rfl⟩ := Checked.map_eq_ok.mp hl
  replace hx := Checked.under_eq_ok.mp hx
  refine ⟨rfl, rfl, ⟨?_, Text.strip_strip _, ?_⟩, ?_⟩
  · exact strip_of_identifier (Checked.under_eq_ok.mp hi)
  · exact strip_of_identifier (Checked.under_eq_ok.mp hclause)
  · cases hc : a.confidence with
    | none => exact .inr (by simpa [hc] using hx)
    | some y =>
        have hxy : some y = x := by simpa [hc, nullable, number, Checked.map] using hx
        exact .inl ⟨y, hxy.symm, ha y hc⟩

theorem readsFlat_annotated {logical : Bool} {s : String} {below : List Rule} :
    ReadsFlat (annotated stop logical (headOf d id s o v) below) fun pre r =>
      r.children = below ∧ IsHeadFrom d o v pre r.head := by
  intro ts us r h
  unfold annotated at h
  split at h
  · cases h
  next a q ha =>
    obtain ⟨t, ht, h⟩ := Attempt.map_eq_ok.mp h
    cases h
    obtain ⟨pre, rfl, hflat, hstated, hread⟩ := readsFlat_annotation _ _ _ ha
    cases hh : headOf d id s o v a with
    | flawed fs =>
        rw [hh] at ht
        cases ht
    | ok k =>
        refine ⟨pre, rfl, hflat, ?_, fun vs hvs => ?_⟩
        · rw [hh] at ht
          cases ht
          exact ⟨rfl, isHeadFrom_headOf hstated hh⟩
        · simp only [annotated, hread vs hvs, ht, Attempt.map_ok]

/-- A rule as it is read from some tokens. -/
structure IsRuleFrom (d : Defaults) (ts : List Token) (r : Rule) : Prop where
  shape : r.head.HasShape r.children.length
  trimmed : r.head.IsTrimmed
  value : ∀ x, r.head.value = some (.number x) → IsStated ts x
  confidence : (∃ x, r.head.confidence = some x ∧ IsStated ts x) ∨
    nullable number d.confidence = .ok r.head.confidence

theorem IsRuleFrom.mono {ts us : List Token} {r : Rule} (h : IsRuleFrom d ts r) (hsub : ts ⊆ us) :
    IsRuleFrom d us r where
  shape := h.shape
  trimmed := h.trimmed
  value x hx := (h.value x hx).mono hsub
  confidence := h.confidence.imp_left fun hx => hx.imp fun _ hx => ⟨hx.1, hx.2.mono hsub⟩

theorem readsFlat_leaf :
    ReadsFlat (leaf stop d id) fun pre r =>
      2 ≤ pre.length ∧ r.children = [] ∧ IsRuleFrom d pre r := by
  intro ts us r h
  unfold leaf at h
  split at h
  · cases h
  next t q hnext =>
    obtain rfl := next_eq_ok.mp hnext
    split at h
    · cases h
    next name hname =>
      split at h
      · cases h
      next o q ho =>
        split at h
        · cases h
        next w q hw =>
          obtain ⟨pre, rfl, hflat, ⟨hne, hlogical⟩, hread⟩ := readsFlat_comparison _ _ _ ho
          obtain ⟨mid, rfl, hflat', hstated, hread'⟩ := readsFlat_literal _ _ _ hw
          obtain ⟨post, rfl, hflat'', ⟨hchildren, hhead⟩, hread''⟩ := readsFlat_annotated _ _ _ h
          have hkind : t.kind ≠ .mark := by
            rintro hmark
            simp [subject?, hmark] at hname
          refine ⟨t :: (pre ++ (mid ++ post)), by simp, ?_, ⟨?_, hchildren, ?_⟩, fun vs hvs => ?_⟩
          · exact (hflat.append (hflat'.append hflat'')).cons_of_kind hkind
          · have := List.length_pos_of_ne_nil hne
            simp only [List.length_cons, List.length_append]
            omega
          · refine ⟨⟨fun _ => ⟨by simp [hchildren], w, hhead.value⟩, fun ho' => ?_⟩, hhead.trimmed,
              fun x hx => ?_, ?_⟩
            · rw [hhead.operator, hlogical] at ho'
              cases ho'
            · have hx : w = .number x := Option.some.inj (hhead.value.symm.trans hx)
              exact (hstated x hx).mono fun u hu => by simp [hu]
            · exact hhead.confidence.imp_left fun hx => hx.imp fun x hx =>
                ⟨hx.1, hx.2.mono fun u hu => by simp [hu]⟩
          · have hpost := head?_append_congr (l := post) hvs
            have hmid := head?_append_congr (l := mid) hpost
            simp only [leaf, next, List.cons_append, List.append_assoc, hname,
              hread (mid ++ (post ++ vs)) hmid, hread' (post ++ vs) hpost, hread'' vs hvs]

end Heads

section Steps

variable {α : Type}

/-- The refusal where a rule is due and none comes. -/
def noRule (stop : Nat) : Step α := .error (.refused .noExpression stop)

theorem expression_nil (fuel : Nat) : expression stop d fuel id [] = noRule stop := by
  cases fuel <;> simp [expression, noRule]

theorem siblings_nil (fuel place : Nat) : siblings stop d fuel id place [] = noRule stop := by
  cases fuel with
  | zero => simp [siblings, noRule]
  | succ fuel => simp [siblings, expression_nil, noRule]

theorem siblings_ne_nil {fuel place : Nat} {ts us : List Token} {rs : List Rule}
    (h : siblings stop d fuel id place ts = .ok (rs, us)) : rs ≠ [] := by
  cases fuel with
  | zero => simp [siblings] at h
  | succ fuel =>
      rw [siblings] at h
      split at h
      · cases h
      · split at h
        · obtain ⟨p, -, h⟩ := Attempt.map_eq_ok.mp h
          cases h
          simp
        · cases h
          simp

theorem siblings_of_noRule {fuel place : Nat} {ts : List Token}
    (h : expression stop d fuel (childId id place) ts = noRule stop) :
    siblings stop d (fuel + 1) id place ts = noRule stop := by
  rw [siblings, h]
  rfl

theorem siblings_eq_noRule {place : Nat} {ts : List Token}
    (h : ∀ fuel, expression stop d fuel (childId id place) ts = noRule stop) (fuel : Nat) :
    siblings stop d fuel id place ts = noRule stop := by
  cases fuel with
  | zero => simp [siblings, noRule]
  | succ fuel => exact siblings_of_noRule (h fuel)

/-- The parenthesis that is one level too many comes in some tokens, and a reader of these that
comes to it ends where a rule is due. -/
def IsCut (stop : Nat) (p : Nat → List Token → Step α) (left : Nat) (pre : List Token) : Prop :=
  ∃ m ≤ pre.length, (∀ count rest, tokensAbove? left count (pre ++ rest) = some (count + m)) ∧
    ∀ fuel, p fuel (pre.take m) = noRule stop

/-- What is known of rules that are read from some tokens before others, within any number of
steps: what they are, that they are read from the same tokens again, and how the levels stand. -/
structure Reading (stop : Nat) (d : Defaults) (p : Nat → List Token → Step α)
    (pre us : List Token) (a : α) (rs : List Rule) : Prop where
  rules : ∀ t ∈ walkAll rs, IsRuleFrom d pre t
  stable : ∀ fuel vs, vs.head? = us.head? →
    p fuel (pre ++ vs) = .ok (a, vs) ∨ p fuel (pre ++ vs) = noRule stop
  levels : ∀ left, depthOf rs ≤ left + 1 ∧ Passes left (pre.map Token.lexeme) ∨
    IsCut stop p left pre

variable {pre post us : List Token} {r : Rule} {rs : List Rule}

theorem logicalStart?_congr (h : 2 ≤ pre.length) (us vs : List Token) :
    logicalStart? (pre ++ vs) = logicalStart? (pre ++ us) := by
  match pre, h with
  | t :: u :: pre, _ => rfl

theorem IsFlat.passes {left : Nat} (h : IsFlat pre) : Passes left (pre.map Token.lexeme) :=
  passes_of_forall (List.forall_mem_map.mpr h)

/-- A comparison is read in one step. -/
theorem reading_leaf {ts : List Token} (hstart : logicalStart? ts = none)
    (h : leaf stop d id ts = .ok (r, us)) :
    ∃ pre, ts = pre ++ us ∧
      Reading stop d (fun fuel => expression stop d fuel id) pre us r [r] := by
  obtain ⟨pre, rfl, hflat, ⟨hlen, hchildren, hrule⟩, hread⟩ := readsFlat_leaf _ _ _ h
  obtain ⟨k, cs⟩ := r
  obtain rfl : cs = [] := hchildren
  refine ⟨pre, rfl, ?_, fun fuel vs hvs => ?_, fun left => .inl ⟨?_, hflat.passes⟩⟩
  · simpa [walkAll, walk] using hrule
  · cases fuel with
    | zero => exact .inr (by simp [expression, noRule])
    | succ fuel =>
        have hne : (pre ++ vs).isEmpty = false := by
          cases pre with
          | nil => simp at hlen
          | cons t pre => rfl
        rw [logicalStart?_congr hlen vs us] at hstart
        exact .inl (by simp [expression, hne, hstart, hread vs hvs])
  · simp [depthOf, depth]



theorem tokensAbove?_of_lexeme {u : Token} (hu : u.lexeme = mark '(') (left count : Nat)
    (ts : List Token) :
    tokensAbove? 0 count (u :: ts) = some (count + 1) ∧
      tokensAbove? (left + 1) count (u :: ts) = tokensAbove? left (count + 1) ts := by
  simp only [Token.lexeme, mark, Prod.mk.injEq] at hu
  rw [tokensAbove?, tokensAbove?, if_pos hu, if_pos hu]
  exact ⟨rfl, rfl⟩

/-- A token that is no mark leaves the levels as they are. -/
theorem tokensAbove?_cons {t : Token} (ht : t.kind ≠ .mark) (left count : Nat) (ts : List Token) :
    tokensAbove? left count (t :: ts) = tokensAbove? left (count + 1) ts :=
  (passes_nil.cons_of_ne ht) [t] ts count rfl

section Cuts

variable {t u c : Token} {o : Operator} {left place : Nat}

/-- A logical word opens the parenthesis that is one level too many when no levels are left. -/
theorem isCut_logical (hstart : ∀ ts, logicalStart? (t :: u :: ts) = some o) (ht : t.kind ≠ .mark)
    (hu : u.lexeme = mark '(') :
    IsCut stop (fun fuel => expression stop d fuel id) 0 (t :: u :: pre) := by
  refine ⟨2, by simp, fun count rest => ?_, fun fuel => ?_⟩
  · rw [List.cons_append, tokensAbove?_cons ht, List.cons_append,
      (tokensAbove?_of_lexeme hu 0 _ _).1]
  · cases fuel with
    | zero => simp [expression, noRule]
    | succ fuel => simp [expression, hstart, siblings_nil, noRule]

/-- What is too deep among the rules below a logical rule is too deep in it. -/
theorem IsCut.logical (hstart : ∀ ts, logicalStart? (t :: u :: ts) = some o) (ht : t.kind ≠ .mark)
    (hu : u.lexeme = mark '(') (h : IsCut stop (fun fuel => siblings stop d fuel id 0) left pre) :
    IsCut stop (fun fuel => expression stop d fuel id) (left + 1) (t :: u :: (pre ++ post)) := by
  obtain ⟨m, hm, hcount, hcut⟩ := h
  refine ⟨m + 2, by simp; omega, fun count rest => ?_, fun fuel => ?_⟩
  · rw [List.cons_append, tokensAbove?_cons ht, List.cons_append,
      (tokensAbove?_of_lexeme hu left _ _).2, List.append_assoc, hcount]
    exact congrArg some (by omega)
  · have htake : (pre ++ post).take m = pre.take m := List.take_append_of_le_length hm
    cases fuel with
    | zero => simp [expression, noRule]
    | succ fuel => simp [expression, hstart, htake, hcut, noRule]

/-- What is too deep in the first of several rules is too deep in all of them. -/
theorem IsCut.first (post : List Token)
    (h : IsCut stop (fun fuel => expression stop d fuel (childId id place)) left pre) :
    IsCut stop (fun fuel => siblings stop d fuel id place) left (pre ++ post) := by
  obtain ⟨m, hm, hcount, hcut⟩ := h
  refine ⟨m, by simp; omega, fun count rest => ?_, siblings_eq_noRule fun fuel => ?_⟩
  · rw [List.append_assoc, hcount]
  · rw [List.take_append_of_le_length hm]
    exact hcut fuel

/-- What is too deep behind the first of several rules is too deep in all of them, if the first is
read from its tokens. -/
theorem IsCut.rest (hc : c.lexeme = mark ',') (hpasses : Passes left (pre.map Token.lexeme))
    (hfirst : ∀ fuel vs,
      expression stop d fuel (childId id place) (pre ++ c :: vs) = .ok (r, c :: vs) ∨
        expression stop d fuel (childId id place) (pre ++ c :: vs) = noRule stop)
    (h : IsCut stop (fun fuel => siblings stop d fuel id (place + 1)) left post) :
    IsCut stop (fun fuel => siblings stop d fuel id place) left (pre ++ c :: post) := by
  obtain ⟨m, hm, hcount, hcut⟩ := h
  have hcomma : Passes left [c.lexeme] :=
    passes_nil.cons (by simp [hc, mark]) (by simp [hc, mark])
  refine ⟨pre.length + 1 + m, by simp; omega, fun count rest => ?_, fun fuel => ?_⟩
  · have hnext := hcomma [c] (post ++ rest) (count + pre.length) rfl
    rw [List.singleton_append] at hnext
    rw [List.append_assoc, hpasses pre _ _ rfl, List.cons_append, hnext, hcount]
    exact congrArg some (by simp; omega)
  · have htake : (pre ++ c :: post).take (pre.length + 1 + m) = pre ++ c :: post.take m := by
      rw [Nat.add_assoc, List.take_length_add_append, Nat.add_comm 1 m, List.take_succ_cons]
    rw [htake]
    cases fuel with
    | zero => simp [siblings, noRule]
    | succ fuel =>
        rcases hfirst fuel (post.take m) with hread | hread
        · simp only [siblings, hread, atMark_of_lexeme hc, if_true, List.tail_cons, hcut]
          rfl
        · exact siblings_of_noRule hread

end Cuts

theorem isRuleFrom_logical {o : Operator} {h : Head} {cs : List Rule} (ho : o.isLogical = true)
    (hcs : cs ≠ []) (hhead : IsHeadFrom d o none post h) (hsub : post ⊆ pre) :
    IsRuleFrom d pre (node h cs) := by
  refine ⟨⟨fun ho' => ?_, fun _ => ⟨hhead.value, by simpa using hcs⟩⟩, hhead.trimmed,
    fun x hx => ?_, hhead.confidence.imp_left fun hx => hx.imp fun x hx =>
      ⟨hx.1, hx.2.mono hsub⟩⟩
  · rw [head_node, hhead.operator, ho] at ho'
    cases ho'
  · rw [head_node, hhead.value] at hx
    cases hx

/-- A logical rule is read in one step more than the rules below it, which have one level less. -/
theorem reading_logical {t u c : Token} {o : Operator} {h : Head} {cs : List Rule}
    (hstart : ∀ ts, logicalStart? (t :: u :: ts) = some o) (ho : o.isLogical = true)
    (ht : t.kind ≠ .mark) (hu : u.lexeme = mark '(') (hc : c.lexeme = mark ')') (hcs : cs ≠ [])
    (hbelow : Reading stop d (fun fuel => siblings stop d fuel id 0) pre (c :: (post ++ us)) cs cs)
    (hflat : IsFlat post) (hhead : IsHeadFrom d o none post h)
    (hread : ∀ vs, vs.head? = us.head? → annotated stop true
      (headOf d id (Schema.lowerAscii o.name) o none) cs (post ++ vs) = .ok (node h cs, vs)) :
    Reading stop d (fun fuel => expression stop d fuel id) (t :: u :: (pre ++ c :: post)) us
      (node h cs) [node h cs] := by
  have htext : c.text = [')'] ∧ c.kind ≠ .quoted := by
    simp only [Token.lexeme, mark, Prod.mk.injEq] at hc
    simp [hc]
  refine ⟨?_, fun fuel vs hvs => ?_, fun left => ?_⟩
  · have hself : IsRuleFrom d (t :: u :: (pre ++ c :: post)) (node h cs) :=
      isRuleFrom_logical ho hcs hhead fun u hu => by simp [hu]
    have hrest : ∀ r ∈ walkAll cs, IsRuleFrom d (t :: u :: (pre ++ c :: post)) r := fun r hr =>
      (hbelow.rules r hr).mono fun u hu => by simp [hu]
    simpa [walkAll, walk] using ⟨hself, hrest⟩
  · cases fuel with
    | zero => exact .inr (by simp [expression, noRule])
    | succ fuel =>
        rcases hbelow.stable fuel (c :: (post ++ vs)) rfl with h | h
        · have hclose : expect stop [')'] (c :: (post ++ vs)) = .ok (post ++ vs) :=
            expect_eq_ok.mpr ⟨c, rfl, htext⟩
          exact .inl (by simp [expression, hstart, h, hclose, hread vs hvs])
        · exact .inr (by simp [expression, hstart, h, noRule])
  · cases left with
    | zero => exact .inr (isCut_logical hstart ht hu)
    | succ left =>
        rcases hbelow.levels left with ⟨hdepth, hpasses⟩ | hcut
        · have hinside := (hpasses.between.append hflat.passes).cons_of_ne (l := t.lexeme) ht
          exact .inl ⟨by simpa [depthOf, depth] using hdepth, by simpa [hu, hc] using hinside⟩
        · exact .inr (hcut.logical hstart ht hu)

/-- The last of several rules is read in one step more than by itself. -/
theorem reading_single {place : Nat} (hcomma : atMark ',' us = false)
    (h : Reading stop d (fun fuel => expression stop d fuel (childId id place)) pre us r [r]) :
    Reading stop d (fun fuel => siblings stop d fuel id place) pre us [r] [r] := by
  refine ⟨h.rules, fun fuel vs hvs => ?_, fun left => ?_⟩
  · cases fuel with
    | zero => exact .inr (by simp [siblings, noRule])
    | succ fuel =>
        refine (h.stable fuel vs hvs).imp (fun hread => ?_) siblings_of_noRule
        rw [← atMark_congr hvs] at hcomma
        simp [siblings, hread, hcomma]
  · exact (h.levels left).imp_right fun hcut => by simpa using hcut.first []

/-- Of several rules the first is read by itself, and those behind the comma as before. -/
theorem reading_cons {place : Nat} {c : Token} (hc : c.lexeme = mark ',')
    (h : Reading stop d (fun fuel => expression stop d fuel (childId id place)) pre
      (c :: (post ++ us)) r [r])
    (hs : Reading stop d (fun fuel => siblings stop d fuel id (place + 1)) post us rs rs) :
    Reading stop d (fun fuel => siblings stop d fuel id place) (pre ++ c :: post) us (r :: rs)
      (r :: rs) := by
  refine ⟨fun t ht => ?_, fun fuel vs hvs => ?_, fun left => ?_⟩
  · rw [walkAll, List.mem_append] at ht
    rcases ht with ht | ht
    · exact (h.rules t (by simpa [walkAll] using ht)).mono (List.subset_append_left _ _)
    · exact (hs.rules t ht).mono fun u hu => by simp [hu]
  · cases fuel with
    | zero => exact .inr (by simp [siblings, noRule])
    | succ fuel =>
        rw [List.append_assoc, List.cons_append]
        rcases h.stable fuel (c :: (post ++ vs)) rfl with hread | hread
        · rw [siblings, hread]
          simp only [atMark_of_lexeme hc, if_true, List.tail_cons]
          refine (hs.stable fuel vs hvs).imp (fun hread => ?_) fun hread => ?_ <;>
            rw [hread] <;> rfl
        · exact .inr (siblings_of_noRule hread)
  · rcases h.levels left with ⟨hdepth, hpasses⟩ | hcut
    · have hcomma : c.lexeme ≠ mark '(' ∧ c.lexeme ≠ mark ')' := by simp [hc, mark]
      rcases hs.levels left with ⟨hdepth', hpasses'⟩ | hcut
      · refine .inl ⟨?_, by simpa using hpasses.append (hpasses'.cons hcomma.1 hcomma.2)⟩
        simp only [depthOf] at hdepth ⊢
        exact Nat.max_le.mpr ⟨le_trans (Nat.le_max_left _ _) hdepth, hdepth'⟩
      · exact .inr (hcut.rest hc hpasses fun fuel vs => h.stable fuel (c :: vs) rfl)
    · exact .inr (hcut.first _)

end Steps

section Runs

variable {us : List Token} {r : Rule} {rs : List Rule}

theorem exists_of_logicalStart? {ts : List Token} {o : Operator} (h : logicalStart? ts = some o) :
    ∃ t u rest, ts = t :: u :: rest ∧ t.kind = .word ∧ u.text = ['('] ∧ o.isLogical = true ∧
      ∀ vs, logicalStart? (t :: u :: vs) = some o := by
  match ts, h with
  | t :: u :: rest, h =>
      simp only [logicalStart?, Option.ite_none_right_eq_some] at h
      obtain ⟨⟨hkind, htext⟩, hlookup⟩ := h
      obtain ⟨l, m, hl, -⟩ := List.lookup_eq_some_iff.mp hlookup
      have hmem : (t.text, o) ∈ logicalWords := by simp [hl]
      have ho : ∀ p ∈ logicalWords, p.2.isLogical = true := by decide
      refine ⟨t, u, rest, rfl, hkind, htext, ho _ hmem, fun vs => ?_⟩
      simp [logicalStart?, hkind, htext, hlookup]

mutual

/-- What is known of an expression that is read, by induction on the bound on the steps. -/
theorem reading_expression : ∀ {fuel : Nat} {id : Json} {ts us : List Token} {r : Rule},
    expression stop d fuel id ts = .ok (r, us) → Token.HasMarks ts → ∃ pre, ts = pre ++ us ∧
      Reading stop d (fun fuel => expression stop d fuel id) pre us r [r]
  | 0, id, ts, us, r, h, hts => by simp [expression] at h
  | fuel + 1, id, ts, us, r, h, hts => by
      rw [expression] at h
      split at h
      · cases h
      split at h
      · next hstart => exact reading_leaf hstart h
      next o hstart =>
        obtain ⟨t, u, rest, rfl, hkind, htext, ho, hwords⟩ := exists_of_logicalStart? hstart
        split at h
        · cases h
        next cs q hcs =>
          split at h
          · cases h
          next q' hclose =>
            obtain ⟨c, rfl, hc, -⟩ := expect_eq_ok.mp hclose
            obtain ⟨post, rfl, hflat, ⟨hchildren, hhead⟩, hread⟩ := readsFlat_annotated _ _ _ h
            have hrest : Token.HasMarks rest := fun v hv => hts v (by simp [hv])
            obtain ⟨pre, hpre, hbelow⟩ := reading_siblings hcs hrest
            obtain rfl : rest = pre ++ c :: (post ++ us) := hpre
            obtain ⟨k, cs⟩ := r
            obtain rfl := hchildren
            refine ⟨t :: u :: (pre ++ c :: post), by simp, ?_⟩
            exact reading_logical hwords ho (by simp [hkind])
              (hts.lexeme_eq (by simp) (by simp) htext) (hts.lexeme_eq (by simp) (by simp) hc)
              (siblings_ne_nil hcs) hbelow hflat hhead hread

theorem reading_siblings : ∀ {fuel : Nat} {id : Json} {place : Nat} {ts us : List Token}
    {rs : List Rule}, siblings stop d fuel id place ts = .ok (rs, us) → Token.HasMarks ts →
      ∃ pre, ts = pre ++ us ∧
        Reading stop d (fun fuel => siblings stop d fuel id place) pre us rs rs
  | 0, id, place, ts, us, rs, h, hts => by simp [siblings] at h
  | fuel + 1, id, place, ts, us, rs, h, hts => by
      rw [siblings] at h
      split at h
      · cases h
      next r q hr =>
        obtain ⟨pre, rfl, hread⟩ := reading_expression hr hts
        split at h
        · next hat =>
          obtain ⟨c, q, rfl, hc⟩ := exists_of_atMark hat
          obtain ⟨⟨rs, us⟩, hrs, h⟩ := Attempt.map_eq_ok.mp h
          cases h
          have hq : Token.HasMarks q := fun v hv => hts v (by simp [hv])
          obtain ⟨post, rfl, hread'⟩ := reading_siblings hrs hq
          exact ⟨pre ++ c :: post, by simp, reading_cons hc hread hread'⟩
        · next hat =>
          cases h
          exact ⟨pre, rfl, reading_single (by simpa using hat) hread⟩

end

end Runs

end Parser

/-- The rules of a text that is read are read from its tokens, and there is one level more than
there may be parentheses around a rule. -/
theorem of_parseWithin {levels : Nat} {d : Defaults} {text : String} {r : Rule}
    (h : parseWithin levels d text = .ok r) :
    ∃ ts, Token.split text.toList = .ok ts ∧ (∀ t ∈ r.walk, Parser.IsRuleFrom d ts t) ∧
      r.depth ≤ levels + 1 := by
  unfold parseWithin at h
  split at h
  · cases h
  next hdeep =>
    have hparse : parse d text = .ok r := by
      cases hp : parse d text with
      | error e =>
          rw [hp] at h
          cases h
      | ok s =>
          rw [hp] at h
          cases h
          rfl
    unfold parse parseChars at hparse
    split at hparse
    · cases hparse
    next ts hsplit =>
      split at hparse
      · cases hparse
      · next s hs =>
        cases hparse
        obtain ⟨pre, hts, hread⟩ := Parser.reading_expression hs (Token.hasMarks_split hsplit)
        obtain rfl : ts = pre := by simpa using hts
        refine ⟨ts, hsplit, by simpa [walkAll] using hread.rules, ?_⟩
        rcases hread.levels levels with ⟨hdepth, -⟩ | ⟨m, -, hcount, hcut⟩
        · simpa [depthOf] using hdepth
        · -- otherwise reading would have come to a rule below the allowed levels
          refine absurd ?_ hdeep
          have hcount : tokensAbove? levels 0 ts = some m := by simpa using hcount 0 []
          simp [isTooDeep, hsplit, hcount, hcut, Parser.noRule]
      · cases hparse

end Rule
end Eligibility
