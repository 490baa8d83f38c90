/-!
# Finite sets of texts

**Representation.**  The members in strictly rising order, so that equal sets are
equal values and the order of the list is the order in which members are shown.

**Results.**
* `mem_ofList`, `mem_insert`, `mem_union`: membership after each operation.
* `ext_members`: sets with the same members are equal.
-/

namespace Eligibility

/-- A finite set of texts. -/
structure TextSet where
  members : List String
  ordered : members.Pairwise (· < ·)
  deriving DecidableEq

namespace TextSet

section Sorted

/-- A rising list with one more text in its place, unless it is there. -/
def insertSorted (x : String) : List String → List String
  | [] => [x]
  | y :: r =>
      if x < y then x :: y :: r
      else if x = y then y :: r
      else y :: insertSorted x r

theorem mem_insertSorted (x z : String) :
    ∀ l : List String, z ∈ insertSorted x l ↔ z = x ∨ z ∈ l
  | [] => by simp [insertSorted]
  | y :: r => by
      unfold insertSorted
      split
      · simp
      · split
        · next h => subst h; simp
        · simp [mem_insertSorted x z r]; grind

theorem pairwise_insertSorted (x : String) :
    ∀ l : List String, l.Pairwise (· < ·) → (insertSorted x l).Pairwise (· < ·)
  | [], _ => by simp [insertSorted]
  | y :: r, h => by
      have hy := List.pairwise_cons.mp h
      unfold insertSorted
      split
      · next hx =>
        refine List.pairwise_cons.mpr ⟨?_, h⟩
        intro z hz
        rcases List.mem_cons.mp hz with rfl | hz
        · exact hx
        · exact String.lt_trans hx (hy.1 z hz)
      · split
        · exact h
        · next h1 h2 =>
          refine List.pairwise_cons.mpr ⟨?_, pairwise_insertSorted x r hy.2⟩
          intro z hz
          rcases (mem_insertSorted x z r).mp hz with rfl | hz
          · grind
          · exact hy.1 z hz

end Sorted

/-- The set without members. -/
def empty : TextSet := ⟨[], List.Pairwise.nil⟩

instance : Inhabited TextSet := ⟨empty⟩

/-- A set with one more member. -/
def insert (x : String) (s : TextSet) : TextSet :=
  ⟨insertSorted x s.members, pairwise_insertSorted x s.members s.ordered⟩

/-- The set of the texts of a list. -/
def ofList (xs : List String) : TextSet := xs.foldr insert empty

/-- The set with a single member. -/
def singleton (x : String) : TextSet := ofList [x]

/-- The members of either set. -/
def union (s t : TextSet) : TextSet := s.members.foldr insert t

/-- Whether a text is a member. -/
def contains (s : TextSet) (x : String) : Bool := s.members.contains x

/-- Whether there is no member. -/
def isEmpty (s : TextSet) : Bool := s.members.isEmpty

/-- Whether every member of the first set is one of the second. -/
def subset (s t : TextSet) : Bool := s.members.all t.contains

/-- Whether two sets share a member. -/
def meets (s t : TextSet) : Bool := s.members.any t.contains

instance : Membership String TextSet := ⟨fun s x => x ∈ s.members⟩

section Membership

theorem mem_def {s : TextSet} {x : String} : x ∈ s ↔ x ∈ s.members := Iff.rfl

@[simp] theorem not_mem_empty (x : String) : ¬ x ∈ empty := by simp [mem_def, empty]

@[simp] theorem mem_insert {x z : String} {s : TextSet} : z ∈ s.insert x ↔ z = x ∨ z ∈ s :=
  mem_insertSorted x z s.members

@[simp] theorem mem_ofList {z : String} {xs : List String} : z ∈ ofList xs ↔ z ∈ xs := by
  induction xs with
  | nil => simp [ofList]
  | cons x r ih => simp only [ofList, List.foldr_cons] at ih ⊢; simp [ih]

@[simp] theorem mem_union {z : String} {s t : TextSet} : z ∈ s.union t ↔ z ∈ s ∨ z ∈ t := by
  have : ∀ l : List String, z ∈ l.foldr insert t ↔ z ∈ l ∨ z ∈ t := by
    intro l
    induction l with
    | nil => simp
    | cons x r ih => simp [ih, or_assoc]
  exact this s.members

@[simp] theorem contains_iff {s : TextSet} {x : String} : s.contains x = true ↔ x ∈ s := by
  simp [contains, mem_def]

theorem subset_iff {s t : TextSet} : s.subset t = true ↔ ∀ x, x ∈ s → x ∈ t := by
  simp [subset, mem_def, contains]

theorem meets_iff {s t : TextSet} : s.meets t = true ↔ ∃ x, x ∈ s ∧ x ∈ t := by
  simp [meets, mem_def, contains]

theorem pairwise_ext : ∀ {l m : List String}, l.Pairwise (· < ·) → m.Pairwise (· < ·) →
    (∀ x, x ∈ l ↔ x ∈ m) → l = m
  | [], [], _, _, _ => rfl
  | [], y :: _, _, _, h => by have := (h y).2 (by simp); simp at this
  | x :: _, [], _, _, h => by have := (h x).1 (by simp); simp at this
  | x :: r, y :: s, hl, hm, h => by
      have hl' := List.pairwise_cons.mp hl
      have hm' := List.pairwise_cons.mp hm
      have hxy : x = y := by
        rcases List.mem_cons.mp ((h x).1 (by simp)) with e | hx
        · exact e
        · rcases List.mem_cons.mp ((h y).2 (by simp)) with e | hy
          · exact e.symm
          · exact absurd (String.lt_trans (hm'.1 x hx) (hl'.1 y hy)) (String.lt_irrefl y)
      subst hxy
      congr 1
      refine pairwise_ext hl'.2 hm'.2 fun z => ?_
      have hz := h z
      simp only [List.mem_cons] at hz
      constructor
      · intro hr
        rcases hz.1 (Or.inr hr) with e | h'
        · subst e; exact absurd (hl'.1 z hr) (String.lt_irrefl z)
        · exact h'
      · intro hs
        rcases hz.2 (Or.inr hs) with e | h'
        · subst e; exact absurd (hm'.1 z hs) (String.lt_irrefl z)
        · exact h'

theorem ext_members {s t : TextSet} (h : ∀ x, x ∈ s ↔ x ∈ t) : s = t := by
  cases s with
  | mk l hl =>
      cases t with
      | mk m hm =>
          have : l = m := pairwise_ext hl hm h
          subst this
          rfl

end Membership

end TextSet
end Eligibility
