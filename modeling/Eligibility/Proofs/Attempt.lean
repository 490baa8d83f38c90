import Mathlib.Data.List.Perm.Basic
/-!
# Attempts: results that may fail

**Use.**  What the library computes step by step ends in a value or in the first
fault.  Each lemma takes one construct apart (a bind, a traversal, a fold), so that
no proof about an operation has to follow the monad.

**Results.**
* `bind_eq_ok`, `map_eq_ok`: when one step after another gives a value.
* `mapM_eq_ok`: a traversal gives a value exactly when every item does.
* `mapM_eq_error`: the fault of a traversal is that of the first item with one.
* `toOption_mapM`: a traversal agrees with a partial one when its items do.
* `exists_mapM`, `exists_foldlM`: a traversal or fold gives a value when its steps do.
* `exists_foldlM_collects`: what a fold collects from item to item.
* `exists_mapM_of_perm`: traversals of the same items in different orders.
-/

namespace Eligibility
namespace Attempt

variable {ε α β : Type}

section Steps

theorem bind_eq_ok {x : Except ε α} {f : α → Except ε β} {b : β} :
    x >>= f = .ok b ↔ ∃ a, x = .ok a ∧ f a = .ok b := by
  cases x with
  | error e => simp [bind, Except.bind]
  | ok a => simp [bind, Except.bind]

theorem bind_eq_error {x : Except ε α} {f : α → Except ε β} {e : ε} :
    x >>= f = .error e ↔ x = .error e ∨ ∃ a, x = .ok a ∧ f a = .error e := by
  cases x with
  | error e' => simp [bind, Except.bind]
  | ok a => simp [bind, Except.bind]

@[simp] theorem ok_bind (a : α) (f : α → Except ε β) : (Except.ok a >>= f) = f a := rfl

@[simp] theorem error_bind (e : ε) (f : α → Except ε β) : (Except.error e >>= f) = .error e := rfl

@[simp] theorem map_ok (f : α → β) (a : α) : (Except.ok a : Except ε α).map f = .ok (f a) := rfl

@[simp] theorem map_error (f : α → β) (e : ε) :
    (Except.error e : Except ε α).map f = .error e := rfl

theorem map_eq_ok {x : Except ε α} {f : α → β} {b : β} :
    x.map f = .ok b ↔ ∃ a, x = .ok a ∧ f a = b := by
  cases x <;> simp

theorem map_eq_error {x : Except ε α} {f : α → β} {e : ε} :
    x.map f = .error e ↔ x = .error e := by
  cases x <;> simp

theorem exists_map_iff {x : Except ε α} {f : α → β} :
    (∃ b, x.map f = .ok b) ↔ ∃ a, x = .ok a := by
  cases x <;> simp

/-- A result that is paired with a label has the value, and the pair the label. -/
theorem map_pair_eq_ok {x : Except ε β} {a : α} {y : α × β} :
    x.map (a, ·) = .ok y ↔ y.1 = a ∧ x = .ok y.2 := by
  obtain ⟨b, z⟩ := y
  cases x <;> simp [eq_comm]

end Steps

section Traversals

/-- A traversal gives a value exactly when each item gives its own. -/
theorem mapM_eq_ok {f : α → Except ε β} {xs : List α} {ys : List β} :
    xs.mapM f = .ok ys ↔ List.Forall₂ (fun x y => f x = .ok y) xs ys := by
  induction xs generalizing ys with
  | nil => cases ys <;> simp [pure, Except.pure]
  | cons x xs ih =>
      rw [List.mapM_cons, bind_eq_ok]
      constructor
      · rintro ⟨y, hy, h⟩
        obtain ⟨zs, hzs, h⟩ := bind_eq_ok.mp h
        cases h
        exact .cons hy (ih.mp hzs)
      · rintro (_ | ⟨hy, hys⟩)
        exact ⟨_, hy, by rw [ih.mpr hys]; rfl⟩

/-- A traversal by steps that all give values is a map. -/
theorem mapM_eq_ok_map {f : α → Except ε β} {k : α → β} {xs : List α}
    (h : ∀ x ∈ xs, f x = .ok (k x)) : xs.mapM f = .ok (xs.map k) := by
  rw [mapM_eq_ok, List.forall₂_map_right_iff, List.forall₂_same]
  exact h

/-- Steps that do the same at every item make traversals that do the same. -/
theorem mapM_congr {f k : α → Except ε β} {xs : List α} (h : ∀ x ∈ xs, f x = k x) :
    xs.mapM f = xs.mapM k := by
  induction xs with
  | nil => rfl
  | cons x xs ih =>
      obtain ⟨hx, hrest⟩ := List.forall_mem_cons.mp h
      rw [List.mapM_cons, List.mapM_cons, hx, ih hrest]

/-- Steps that do the same at items of the same place make traversals that do the same. -/
theorem mapM_eq_mapM {γ : Type} {f : α → Except ε γ} {k : β → Except ε γ} {xs : List α}
    {ys : List β} (h : List.Forall₂ (fun x y => f x = k y) xs ys) : xs.mapM f = ys.mapM k := by
  induction h with
  | nil => rfl
  | cons hxy _ ih => rw [List.mapM_cons, List.mapM_cons, hxy, ih]

/-- A traversal gives a fault at the first item that gives one. -/
theorem mapM_eq_error {f : α → Except ε β} {xs : List α} {e : ε} :
    xs.mapM f = .error e ↔ ∃ pre x post, xs = pre ++ x :: post ∧
      (∀ y ∈ pre, ∃ b, f y = .ok b) ∧ f x = .error e := by
  induction xs with
  | nil => simp [pure, Except.pure]
  | cons z xs ih =>
      rw [List.mapM_cons, bind_eq_error]
      constructor
      · rintro (hz | ⟨b, hb, h⟩)
        · exact ⟨[], z, xs, rfl, by simp, hz⟩
        · rcases bind_eq_error.mp h with h | ⟨bs, -, h⟩
          · obtain ⟨pre, x, post, rfl, hpre, hx⟩ := ih.mp h
            exact ⟨z :: pre, x, post, rfl, List.forall_mem_cons.mpr ⟨⟨b, hb⟩, hpre⟩, hx⟩
          · cases h
      · rintro ⟨_ | ⟨y, pre⟩, x, post, hxs, hpre, hx⟩
        · obtain ⟨rfl, rfl⟩ := List.cons.inj hxs
          exact .inl hx
        · obtain ⟨rfl, rfl⟩ := List.cons.inj hxs
          obtain ⟨⟨b, hb⟩, hpre⟩ := List.forall_mem_cons.mp hpre
          refine .inr ⟨b, hb, ?_⟩
          rw [ih.mpr ⟨pre, x, post, rfl, hpre, hx⟩, error_bind]

/-- A traversal that fails does so with the fault of one of the items. -/
theorem exists_of_mapM_error {f : α → Except ε β} {xs : List α} {e : ε}
    (h : xs.mapM f = .error e) : ∃ x ∈ xs, f x = .error e := by
  obtain ⟨pre, x, post, rfl, -, hx⟩ := mapM_eq_error.mp h
  exact ⟨x, by simp, hx⟩

/-- What a traversal gives comes from its items. -/
theorem exists_of_mem_mapM {f : α → Except ε β} {xs : List α} {ys : List β}
    (h : xs.mapM f = .ok ys) {y : β} (hy : y ∈ ys) : ∃ x ∈ xs, f x = .ok y := by
  have hall := mapM_eq_ok.mp h
  clear h
  induction hall with
  | nil => simp at hy
  | cons hxy _ ih =>
      rcases List.mem_cons.mp hy with rfl | hy
      · exact ⟨_, by simp, hxy⟩
      · obtain ⟨x, hx, hf⟩ := ih hy
        exact ⟨x, List.mem_cons_of_mem _ hx, hf⟩

/-- Where a traversal gives a value, so do its items. -/
theorem exists_ok_of_mapM {f : α → Except ε β} {xs : List α} {ys : List β}
    (h : xs.mapM f = .ok ys) {x : α} (hx : x ∈ xs) : ∃ y, f x = .ok y := by
  have hall := mapM_eq_ok.mp h
  clear h
  induction hall with
  | nil => simp at hx
  | cons hxy _ ih =>
      rcases List.mem_cons.mp hx with rfl | hx
      · exact ⟨_, hxy⟩
      · exact ih hx

theorem exists_mapM {f : α → Except ε β} {R : α → β → Prop} {xs : List α}
    (h : ∀ x ∈ xs, ∃ y, f x = .ok y ∧ R x y) :
    ∃ ys, xs.mapM f = .ok ys ∧ List.Forall₂ R xs ys := by
  induction xs with
  | nil => exact ⟨[], rfl, .nil⟩
  | cons x xs ih =>
      obtain ⟨y, hy, hR⟩ := h x (by simp)
      obtain ⟨ys, hys, hRs⟩ := ih fun z hz => h z (List.mem_cons_of_mem _ hz)
      exact ⟨y :: ys, by rw [List.mapM_cons, hy, ok_bind, hys]; rfl, .cons hR hRs⟩

/-- A traversal gives a value exactly where all items do. -/
theorem exists_mapM_iff {f : α → Except ε β} {xs : List α} :
    (∃ ys, xs.mapM f = .ok ys) ↔ ∀ x ∈ xs, ∃ y, f x = .ok y := by
  constructor
  · rintro ⟨ys, hys⟩ x hx
    exact exists_ok_of_mapM hys hx
  · intro h
    obtain ⟨ys, hys, -⟩ := exists_mapM (R := fun x y => f x = .ok y) fun x hx =>
      (h x hx).imp fun y hy => ⟨hy, hy⟩
    exact ⟨ys, hys⟩

/-- The items of the parts that a traversal gives have what the items of each part have. -/
theorem exists_mapM_flatten {f : α → Except ε (List β)} {P : β → Prop} {xs : List α}
    (h : ∀ x ∈ xs, ∃ ys, f x = .ok ys ∧ ∀ y ∈ ys, P y) :
    ∃ parts, xs.mapM f = .ok parts ∧ ∀ y ∈ parts.flatten, P y := by
  obtain ⟨parts, hparts, -⟩ := exists_mapM h
  refine ⟨parts, hparts, fun y hy => ?_⟩
  obtain ⟨part, hpart, hy⟩ := List.mem_flatten.mp hy
  obtain ⟨x, hx, hxpart⟩ := exists_of_mem_mapM hparts hpart
  obtain ⟨ys, hys, hP⟩ := h x hx
  obtain rfl : ys = part := Except.ok.inj (hys.symm.trans hxpart)
  exact hP y hy

/-- What the items of each part have, the items of all parts have. -/
theorem mapM_flatten_keeps {f : α → Except ε (List β)} {P : β → Prop} {xs : List α}
    {parts : List (List β)} (hparts : xs.mapM f = .ok parts)
    (hstep : ∀ x ∈ xs, ∀ ys, f x = .ok ys → ∀ y ∈ ys, P y) : ∀ y ∈ parts.flatten, P y := by
  intro y hy
  obtain ⟨part, hpart, hy⟩ := List.mem_flatten.mp hy
  obtain ⟨x, hx, hxpart⟩ := exists_of_mem_mapM hparts hpart
  exact hstep x hx part hxpart y hy

/-- The part of every item is among the parts that a traversal gives. -/
theorem subset_flatten_of_mapM {f : α → Except ε (List β)} {xs : List α} {parts : List (List β)}
    (h : xs.mapM f = .ok parts) {x : α} (hx : x ∈ xs) {ys : List β} (hy : f x = .ok ys) :
    ys ⊆ parts.flatten := by
  have hall := mapM_eq_ok.mp h
  clear h
  induction hall with
  | nil => simp at hx
  | cons hxy _ ih =>
      rw [List.flatten_cons]
      rcases List.mem_cons.mp hx with rfl | hx
      · rw [Except.ok.inj (hy.symm.trans hxy)]
        exact List.subset_append_left _ _
      · exact List.subset_append_of_subset_right _ (ih hx)

/-- A traversal whose items agree with those of a partial one agrees with it. -/
theorem toOption_mapM {γ δ : Type} {f : α → Except ε β} {k : β → γ} {m : δ → Option γ}
    {xs : List δ} {ys : List α} (h : List.Forall₂ (fun x y => (f y).toOption.map k = m x) xs ys) :
    (ys.mapM f).toOption.map (List.map k) = xs.mapM m := by
  induction h with
  | nil => rfl
  | @cons x y xs ys hxy _ ih =>
      rw [List.mapM_cons, List.mapM_cons, ← hxy, ← ih]
      cases f y with
      | error e => rfl
      | ok b => cases ys.mapM f <;> rfl

theorem mapM_eq_some_map {γ δ : Type} {f : δ → Option γ} {k : β → γ} {xs : List δ} {ys : List β}
    (h : List.Forall₂ (fun x y => f x = some (k y)) xs ys) : xs.mapM f = some (ys.map k) := by
  induction h with
  | nil => rfl
  | cons hxy _ ih =>
      rw [List.mapM_cons, hxy, ih]
      rfl

theorem mapM_map_option {γ : Type} (f : α → Option β) (k : β → γ) (xs : List α) :
    xs.mapM (fun x => (f x).map k) = (xs.mapM f).map (List.map k) := by
  induction xs with
  | nil => rfl
  | cons x xs ih =>
      rw [List.mapM_cons, List.mapM_cons, ih]
      cases f x with
      | none => rfl
      | some y => cases xs.mapM f <;> rfl

/-- Two traversals of a list that give related values at every item. -/
theorem exists_mapM_pair {γ : Type} {f : α → Except ε β} {k : α → Except ε γ}
    {R : β → γ → Prop} {xs : List α} (h : ∀ x ∈ xs, ∃ y z, f x = .ok y ∧ k x = .ok z ∧ R y z) :
    ∃ ys zs, xs.mapM f = .ok ys ∧ xs.mapM k = .ok zs ∧ List.Forall₂ R ys zs := by
  induction xs with
  | nil => exact ⟨[], [], rfl, rfl, .nil⟩
  | cons x xs ih =>
      obtain ⟨⟨y, z, hy, hz, hyz⟩, hrest⟩ := List.forall_mem_cons.mp h
      obtain ⟨ys, zs, hys, hzs, hall⟩ := ih hrest
      refine ⟨y :: ys, z :: zs, ?_, ?_, .cons hyz hall⟩
      · rw [List.mapM_cons, hy, hys]
        rfl
      · rw [List.mapM_cons, hz, hzs]
        rfl

/-- A traversal of the same items in another order gives the same values in another order. -/
theorem exists_mapM_of_perm {f : α → Except ε β} {xs ys : List α} (h : xs.Perm ys) {bs : List β}
    (hbs : xs.mapM f = .ok bs) : ∃ cs, ys.mapM f = .ok cs ∧ cs.Perm bs := by
  obtain ⟨cs, hcs, hperm⟩ := List.perm_comp_forall₂ h.symm (mapM_eq_ok.mp hbs)
  exact ⟨cs, mapM_eq_ok.mpr hcs, hperm⟩

/-- A fold gives a value that keeps what each of its steps keeps. -/
theorem exists_foldlM {f : β → α → Except ε β} {P : β → Prop} {xs : List α} {b : β} (hb : P b)
    (h : ∀ b, P b → ∀ x ∈ xs, ∃ c, f b x = .ok c ∧ P c) :
    ∃ c, xs.foldlM f b = .ok c ∧ P c := by
  induction xs generalizing b with
  | nil => exact ⟨b, rfl, hb⟩
  | cons x xs ih =>
      obtain ⟨c, hc, hP⟩ := h b hb x (by simp)
      obtain ⟨d, hd, hQ⟩ := ih hP fun b hb z hz => h b hb z (List.mem_cons_of_mem _ hz)
      exact ⟨d, by rw [List.foldlM_cons, hc, ok_bind, hd], hQ⟩

/-- What each step of a fold keeps holds of the value that the fold gives. -/
theorem foldlM_keeps {f : β → α → Except ε β} {P : β → Prop} {xs : List α} {b c : β}
    (hc : xs.foldlM f b = .ok c) (hb : P b)
    (hstep : ∀ b, P b → ∀ x ∈ xs, ∀ c, f b x = .ok c → P c) : P c := by
  induction xs generalizing b with
  | nil => exact Except.ok.inj hc ▸ hb
  | cons x xs ih =>
      rw [List.foldlM_cons] at hc
      obtain ⟨d, hd, hc⟩ := bind_eq_ok.mp hc
      exact ih hc (hstep b hb x (by simp) d hd)
        fun b hb z hz => hstep b hb z (List.mem_cons_of_mem _ hz)

/-- What a traversal collects, if each step collects what its item has. -/
theorem exists_foldlM_collects {γ : Type} {f : β → α → Except ε β} {R : β → List γ → Prop}
    {items : α → List γ} {xs : List α} {b : β} {seen : List γ} (hb : R b seen)
    (h : ∀ b seen, R b seen → ∀ x ∈ xs, ∃ c, f b x = .ok c ∧ R c (seen ++ items x)) :
    ∃ c, xs.foldlM f b = .ok c ∧ R c (seen ++ xs.flatMap items) := by
  induction xs generalizing b seen with
  | nil => exact ⟨b, rfl, by simpa using hb⟩
  | cons x xs ih =>
      obtain ⟨c, hc, hR⟩ := h b seen hb x (by simp)
      obtain ⟨d, hd, hR'⟩ := ih hR fun b seen hb y hy => h b seen hb y (List.mem_cons_of_mem _ hy)
      refine ⟨d, by rw [List.foldlM_cons, hc]; exact hd, ?_⟩
      rwa [List.flatMap_cons, ← List.append_assoc]

/-- A fold whose steps only add to what was there, and settle something for each item, settles it
for every item. -/
theorem exists_foldlM_settled {f : β → α → Except ε β} {P : β → Prop} {R : β → β → Prop}
    {Q : α → β → Prop} {xs : List α} {b : β} (hb : P b) (hrefl : ∀ b, R b b)
    (htrans : ∀ {b c d}, R b c → R c d → R b d) (hkeep : ∀ {x b c}, R b c → Q x b → Q x c)
    (h : ∀ b, P b → ∀ x ∈ xs, ∃ c, f b x = .ok c ∧ P c ∧ R b c ∧ Q x c) :
    ∃ c, xs.foldlM f b = .ok c ∧ P c ∧ R b c ∧ ∀ x ∈ xs, Q x c := by
  induction xs generalizing b with
  | nil => exact ⟨b, rfl, hb, hrefl b, by simp⟩
  | cons x xs ih =>
      obtain ⟨c, hc, hP, hbc, hQ⟩ := h b hb x (by simp)
      obtain ⟨d, hd, hPd, hcd, hQd⟩ := ih hP fun b hb z hz => h b hb z (List.mem_cons_of_mem _ hz)
      refine ⟨d, by rw [List.foldlM_cons, hc, ok_bind, hd], hPd, htrans hbc hcd, ?_⟩
      exact List.forall_mem_cons.mpr ⟨hkeep hcd hQ, hQd⟩

/-- Filtering gives items of the list where the test of each item gives an answer. -/
theorem exists_filterM {f : α → Except ε Bool} {xs : List α} (h : ∀ x ∈ xs, ∃ b, f x = .ok b) :
    ∃ ys, xs.filterM f = .ok ys ∧ ys ⊆ xs := by
  have hfold : ∀ acc : List α, ∃ ys, xs.filterAuxM f acc = .ok ys ∧ ys ⊆ acc ++ xs := by
    induction xs with
    | nil => exact fun acc => ⟨acc, rfl, by simp⟩
    | cons x r ih =>
        intro acc
        obtain ⟨b, hb⟩ := h x (by simp)
        obtain ⟨ys, hys, hsub⟩ :=
          ih (fun y hy => h y (List.mem_cons_of_mem _ hy)) (cond b (x :: acc) acc)
        refine ⟨ys, by rw [List.filterAuxM, hb, ok_bind, hys], fun y hy => ?_⟩
        rcases List.mem_append.mp (hsub hy) with hy | hy
        · cases b with
          | false => exact List.mem_append_left _ hy
          | true =>
              rcases List.mem_cons.mp hy with rfl | hy
              · simp
              · exact List.mem_append_left _ hy
        · simp [hy]
  obtain ⟨ys, hys, hsub⟩ := hfold []
  exact ⟨ys.reverse, by rw [List.filterM, hys]; rfl, by simpa using hsub⟩

/-- A filter by questions that have answers keeps the items with the answer yes. -/
theorem mem_filterM {f : α → Except ε Bool} {xs ys : List α} (h : xs.filterM f = .ok ys) (x : α) :
    x ∈ ys ↔ x ∈ xs ∧ f x = .ok true := by
  have hfold : ∀ (xs acc zs : List α), xs.filterAuxM f acc = .ok zs →
      (x ∈ zs ↔ x ∈ acc ∨ x ∈ xs ∧ f x = .ok true) := by
    intro xs
    induction xs with
    | nil =>
        intro acc zs hzs
        obtain rfl := Except.ok.inj hzs
        simp
    | cons y r ih =>
        intro acc zs hzs
        obtain ⟨b, hb, hzs⟩ := bind_eq_ok.mp hzs
        rw [ih _ _ hzs]
        cases b with
        | false =>
            have hno : x = y → f x ≠ .ok true := by
              rintro rfl he
              rw [hb] at he
              cases he
            simp only [cond_false, List.mem_cons]
            grind
        | true =>
            simp only [cond_true, List.mem_cons]
            grind
  obtain ⟨zs, hzs, hys⟩ := bind_eq_ok.mp h
  obtain rfl := Except.ok.inj hys
  rw [List.mem_reverse, hfold xs [] zs hzs]
  simp

/-- Filtering gives items of the list. -/
theorem subset_of_filterM {f : α → Except ε Bool} {xs ys : List α} (h : xs.filterM f = .ok ys) :
    ys ⊆ xs := fun x hx => ((mem_filterM h x).mp hx).1

/-- A walk through a list ends well exactly when each step does. -/
theorem forM_eq_ok {f : α → Except ε Unit} {xs : List α} :
    forM xs f = .ok () ↔ ∀ x ∈ xs, f x = .ok () := by
  induction xs with
  | nil => simp [pure, Except.pure]
  | cons x r ih =>
      rw [List.forM_cons, bind_eq_ok, List.forall_mem_cons, ← ih]
      constructor
      · rintro ⟨⟨⟩, hx, hr⟩
        exact ⟨hx, hr⟩
      · exact fun ⟨hx, hr⟩ => ⟨⟨⟩, hx, hr⟩

/-- A walk through a list that fails does so with the fault of one of the steps. -/
theorem exists_of_forM_error {f : α → Except ε Unit} {xs : List α} {e : ε}
    (h : forM xs f = .error e) : ∃ x ∈ xs, f x = .error e := by
  induction xs with
  | nil => cases h
  | cons x r ih =>
      rw [List.forM_cons, bind_eq_error] at h
      rcases h with h | ⟨-, -, h⟩
      · exact ⟨x, by simp, h⟩
      · obtain ⟨y, hy, hf⟩ := ih h
        exact ⟨y, List.mem_cons_of_mem _ hy, hf⟩

end Traversals

section Pairings

variable {γ : Type} {R : α → β → Prop}

theorem exists_forall₂ {xs : List α} (h : ∀ x ∈ xs, ∃ y, R x y) : ∃ ys, List.Forall₂ R xs ys := by
  induction xs with
  | nil => exact ⟨[], .nil⟩
  | cons x xs ih =>
      obtain ⟨y, hy⟩ := h x (by simp)
      obtain ⟨ys, hys⟩ := ih fun z hz => h z (List.mem_cons_of_mem _ hz)
      exact ⟨y :: ys, .cons hy hys⟩

theorem map_eq_map_of_forall₂ {f : β → γ} {k : α → γ} {xs : List α} {ys : List β}
    (h : List.Forall₂ (fun x y => f y = k x) xs ys) : ys.map f = xs.map k := by
  induction h with
  | nil => rfl
  | cons hxy _ ih => rw [List.map_cons, List.map_cons, hxy, ih]

theorem exists_left {xs : List α} {ys : List β} (h : List.Forall₂ R xs ys) {y : β} (hy : y ∈ ys) :
    ∃ x ∈ xs, R x y := by
  induction h with
  | nil => simp at hy
  | cons hxy _ ih =>
      rcases List.mem_cons.mp hy with rfl | hy
      · exact ⟨_, by simp, hxy⟩
      · obtain ⟨x, hx, hR⟩ := ih hy
        exact ⟨x, List.mem_cons_of_mem _ hx, hR⟩

theorem exists_right {xs : List α} {ys : List β} (h : List.Forall₂ R xs ys) {x : α} (hx : x ∈ xs) :
    ∃ y ∈ ys, R x y :=
  exists_left (R := flip R) h.flip hx

/-- Two pairings of one list pair the others. -/
theorem forall₂_join {S : α → γ → Prop} {T : β → γ → Prop} {xs : List α} {ys : List β} {zs : List γ}
    (hR : List.Forall₂ R xs ys) (hS : List.Forall₂ S xs zs)
    (h : ∀ x y z, R x y → S x z → T y z) : List.Forall₂ T ys zs := by
  induction hR generalizing zs with
  | nil => cases hS; exact .nil
  | cons hxy _ ih =>
      cases hS with
      | cons hxz hS => exact .cons (h _ _ _ hxy hxz) (ih hS)

/-- Where paired items agree in a property, one of either list has it. -/
theorem exists_mem_iff {P : α → Prop} {Q : β → Prop} {xs : List α} {ys : List β}
    (h : List.Forall₂ (fun x y => P x ↔ Q y) xs ys) : (∃ x ∈ xs, P x) ↔ ∃ y ∈ ys, Q y := by
  induction h with
  | nil => simp
  | cons hxy _ ih => rw [List.exists_mem_cons_iff, List.exists_mem_cons_iff, hxy, ih]

theorem pairwise_right {S : α → α → Prop} {T : β → β → Prop} {xs : List α} {ys : List β}
    (hR : List.Forall₂ R xs ys) (hS : xs.Pairwise S)
    (h : ∀ x x' y y', R x y → R x' y' → S x x' → T y y') : ys.Pairwise T := by
  induction hR with
  | nil => exact .nil
  | @cons x y xs ys hxy hR ih =>
      obtain ⟨hx, hS⟩ := List.pairwise_cons.mp hS
      refine List.pairwise_cons.mpr ⟨fun y' hy' => ?_, ih hS⟩
      obtain ⟨x', hx', hxy'⟩ := exists_left hR hy'
      exact h x x' y y' hxy hxy' (hx x' hx')

end Pairings

end Attempt
end Eligibility
