import Eligibility.Json.Printer
import Eligibility.Sorting
/-!
# Names

**Use.**  A name identifies a node, an edge, a variable, a clause or a policy of
a graph.  Compiled graphs name everything by texts; a graph read from a file may
hold any scalar.  Lists and objects are no names.

**Order.**  Texts are ordered by code points and numbers by value; names of
different sorts have no order, and neither has null.

**Results.**
* `sort?_strs`: texts have an order, and sorting keeps them all.
-/

namespace Eligibility

/-- What identifies a thing: a text in compiled graphs, any scalar in graphs from files. -/
abbrev Name := Json

namespace Name

/-- Whether a value can be a name. -/
def isUsable (n : Name) : Bool := n.isScalar

/-- The texts of a list of names, if all of them are texts. -/
def texts? : List Name → Option (List String)
  | [] => some []
  | .str s :: r => (texts? r).map (s :: ·)
  | _ :: _ => none

section Order

/-- The numeric value of a name, if it has one. -/
def numeric? : Name → Option Number
  | .bool b => some (if b then Number.one else Number.zero)
  | .int n => some (.finite n)
  | .float x => some x
  | _ => none

mutual

/-- Whether one value comes before another one, if they have an order: texts, numbers, and lists
by the first items that are not alike. -/
def before? : Json → Json → Option Bool
  | .str s, .str t => some (decide (s < t))
  | .arr xs, .arr ys => itemsBefore? xs ys
  | a, b =>
      match numeric? a, numeric? b with
      | some x, some y => some (x.lt y)
      | _, _ => none

/-- Whether one list comes before another one, if they have an order. -/
def itemsBefore? : List Json → List Json → Option Bool
  | _, [] => some false
  | [], _ :: _ => some true
  | x :: xs, y :: ys => if x.alike y then itemsBefore? xs ys else before? x y

end

/-- Whether one name comes before another one; two without an order fail. -/
def compare : Sorting.Comparison Unit Name := fun a b =>
  match before? a b with
  | some answer => .ok answer
  | none => .error ()

/-- Texts in rising order. -/
def sortTexts (xs : List String) : List String := xs.mergeSort fun a b => decide (a ≤ b)

/-- Names in rising order, if they have one. -/
def sort? (ns : List Name) : Option (List Name) :=
  match texts? ns with
  | some xs => some ((sortTexts xs).map Json.str)
  | none => (Sorting.sort compare ns).toOption

/-- The first of the names that no later one precedes, going through them from a given one on. -/
def least? (first : Name) : List Name → Option Name
  | [] => some first
  | n :: r =>
      match before? n first with
      | some true => least? n r
      | some false => least? first r
      | none => none

theorem texts?_strs (xs : List String) : texts? (xs.map Json.str) = some xs := by
  induction xs with
  | nil => rfl
  | cons x r ih => simp [texts?, ih]

theorem sort?_strs (xs : List String) :
    sort? (xs.map Json.str) = some ((sortTexts xs).map Json.str) := by
  simp [sort?, texts?_strs]

end Order

/-- A name as the key of an object in JSON. -/
def key : Name → String
  | .str s => s
  | .arr _ => ""
  | .obj _ => ""
  | j => String.ofList (Json.scalarText j)

end Name
end Eligibility
