/-!
# Sorting by comparisons that may fail

**Procedure.**  The run at the head of a list is kept if it does not fall and
turned round if it falls throughout; each later item is then put in its place,
which is sought by halving.  An item goes behind those that it does not precede.

**Use.**  Where the comparison is an order, the result is the stable sorting of the
list.  The procedure is fixed because some comparisons are none: nothing precedes,
or comes after, what is no number.

**Results.**
* `length_place`: putting an item in its place adds one item.
-/

namespace Eligibility
namespace Sorting

variable {α ε : Type}

/-- A comparison that says whether its first argument precedes its second, or fails. -/
abbrev Comparison (ε α : Type) := α → α → Except ε Bool

/-- How many of the items that follow an item belong to its run: those before the first that
precedes the item ahead of it, or, where `falling`, before the first that does not. -/
def runLength (before : Comparison ε α) (falling : Bool) (x : α) : List α → Except ε Nat
  | [] => .ok 0
  | y :: r => do
      if (← before y x) == falling then return (← runLength before falling y r) + 1
      else return 0

/-- The place of an item among the items from `low` up to `high`, sought within `fuel` halvings. -/
def seek (before : Comparison ε α) (xs : List α) (x : α) : Nat → Nat → Nat → Except ε Nat
  | 0, low, _ => .ok low
  | fuel + 1, low, high =>
      if high ≤ low then .ok low
      else
        let middle := (low + high) / 2
        match xs[middle]? with
        | none => .ok low
        | some y => do
            if ← before x y then seek before xs x fuel low middle
            else seek before xs x fuel (middle + 1) high

/-- A sorted list with an item put at a place. -/
def place (xs : List α) (x : α) (k : Nat) : List α := xs.take k ++ x :: xs.drop k

/-- A sorted list with one more item. -/
def insert (before : Comparison ε α) (xs : List α) (x : α) : Except ε (List α) :=
  (seek before xs x (xs.length + 1) 0 xs.length).map (place xs x)

/-- The items of a list in their order, or the failure of a comparison. -/
def sort (before : Comparison ε α) : List α → Except ε (List α)
  | [] => .ok []
  | [x] => .ok [x]
  | x :: y :: r => do
      let falling ← before y x
      let n ← runLength before falling x (y :: r)
      let run := x :: (y :: r).take n
      ((y :: r).drop n).foldlM (insert before) (if falling then run.reverse else run)

theorem length_place (xs : List α) (x : α) (k : Nat) : (place xs x k).length = xs.length + 1 := by
  have h : (xs.take k).length + (xs.drop k).length = xs.length := by
    rw [← List.length_append, List.take_append_drop]
  simp only [place, List.length_append, List.length_cons]
  omega

end Sorting
end Eligibility
