import Eligibility.Number
/-!
# JSON values

**Values.**  Integers of any size and double-precision numbers are told apart;
an object keeps its fields in the order of their first appearance.

**Equality.**  `same` compares by value: a truth value counts as one or zero, an
integer and a number are the same when they denote the same rational, and the
order of an object's fields does not matter.  `alike` says by what a collection
recognizes its members; the two differ only on what is no number.

**Strict JSON.**  The infinities and what is no number have no form there; `strict`
puts null in their place.

**Results.**
* `same_str`, `alike_str`: texts are the same, and alike, exactly when they are equal.
* `lookup_put_same`: a field that was put is found.
* `strictItems_eq_map`, `strictFields_eq_map`: strict JSON is made part by part.
-/

namespace Eligibility

/-- A JSON value. -/
inductive Json where
  | null
  | bool (b : Bool)
  | int (n : Int)
  | float (x : Number)
  | str (s : String)
  | arr (items : List Json)
  | obj (fields : List (String × Json))

namespace Json

instance : Inhabited Json := ⟨null⟩

section Access

/-- The value of a key in a list of fields. -/
def lookup (k : String) : List (String × Json) → Option Json
  | [] => none
  | (k', v) :: r => if k' = k then some v else lookup k r

/-- A list of fields with one value set: in place if the key is there, else at the end. -/
def put (k : String) (v : Json) : List (String × Json) → List (String × Json)
  | [] => [(k, v)]
  | (k', v') :: r => if k' = k then (k, v) :: r else (k', v') :: put k v r

/-- The fields of pairs read in order, a later value replacing an earlier one. -/
def ofPairs (ps : List (String × Json)) : List (String × Json) :=
  ps.foldl (fun acc p => put p.1 p.2 acc) []

/-- The value of a key of an object. -/
def get? (j : Json) (k : String) : Option Json :=
  match j with
  | obj fs => lookup k fs
  | _ => none

/-- A list of texts. -/
def strs (xs : List String) : Json := arr (xs.map str)

/-- A natural number. -/
def nat (n : Nat) : Json := int n

/-- A text, or null where there is none. -/
def str? : Option String → Json
  | some s => str s
  | none => null

/-- A number, or null where there is none. -/
def float? : Option Number → Json
  | some x => float x
  | none => null

theorem lookup_put_same (k : String) (v : Json) :
    ∀ fs : List (String × Json), lookup k (put k v fs) = some v
  | [] => by simp [put, lookup]
  | (k', v') :: r => by
      by_cases h : k' = k
      · simp [put, lookup, h]
      · simp [put, lookup, h, lookup_put_same k v r]

end Access

section Kinds

/-- Whether a value counts as true: it is neither null, false, zero nor empty. -/
def truthy : Json → Bool
  | null => false
  | bool b => b
  | int n => decide (n ≠ 0)
  | float x => !(x.same Number.zero)
  | str s => decide (s ≠ "")
  | arr xs => !xs.isEmpty
  | obj fs => !fs.isEmpty

/-- Whether a value is null, a truth value, a number or a text. -/
def isScalar : Json → Bool
  | arr _ => false
  | obj _ => false
  | _ => true

/-- The name of the kind of a value, as messages give it. -/
def kindName : Json → String
  | null => "NoneType"
  | bool _ => "bool"
  | int _ => "int"
  | float _ => "float"
  | str _ => "str"
  | arr _ => "list"
  | obj _ => "dict"

end Kinds

section Equality

/-- Whether two scalars are the same by value. -/
def sameScalar : Json → Json → Bool
  | null, null => true
  | str s, str t => decide (s = t)
  | bool a, bool b => decide (a = b)
  | bool a, int n => decide (n = if a then 1 else 0)
  | int n, bool a => decide (n = if a then 1 else 0)
  | bool a, float x => x.sameInt (if a then 1 else 0)
  | float x, bool a => x.sameInt (if a then 1 else 0)
  | int m, int n => decide (m = n)
  | int n, float x => x.sameInt n
  | float x, int n => x.sameInt n
  | float x, float y => x.same y
  | _, _ => false

/-- Whether a collection that holds one scalar holds the other one. -/
def alikeScalar : Json → Json → Bool
  | float x, float y => x.alike y
  | x, y => sameScalar x y

mutual

/-- Whether a collection that holds one value holds the other one. -/
def alike : Json → Json → Bool
  | arr xs, arr ys => alikeItems xs ys
  | obj fs, obj gs => decide (fs.length = gs.length) && alikeFields fs gs
  | x, y => alikeScalar x y

/-- Whether two lists hold alike values in the same order. -/
def alikeItems : List Json → List Json → Bool
  | [], [] => true
  | x :: xs, y :: ys => alike x y && alikeItems xs ys
  | _, _ => false

/-- Whether every field of the first list has a value like it in the second. -/
def alikeFields : List (String × Json) → List (String × Json) → Bool
  | [], _ => true
  | (k, v) :: r, gs =>
      (match lookup k gs with
      | some w => alike v w
      | none => false) && alikeFields r gs

end

/-- Whether two values are the same: scalars by value, and collections when their members are
alike. -/
def same : Json → Json → Bool
  | arr xs, y => alike (arr xs) y
  | obj fs, y => alike (obj fs) y
  | x, y => sameScalar x y

@[simp] theorem same_str (s t : String) : same (str s) (str t) = decide (s = t) := by
  simp [same, sameScalar]

@[simp] theorem same_null_str (t : String) : same null (str t) = false := by
  simp [same, sameScalar]

@[simp] theorem alike_str (s t : String) : alike (str s) (str t) = decide (s = t) := by
  simp [alike, alikeScalar, sameScalar]

@[simp] theorem alike_null_str (t : String) : alike null (str t) = false := by
  simp [alike, alikeScalar, sameScalar]

/-- Whether a value is among others. -/
def among (j : Json) (js : List Json) : Bool := js.any (alike j)

/-- The values of a list without repetition, in the order of their first appearance. -/
def distinct (js : List Json) : List Json :=
  js.foldl (fun acc j => if among j acc then acc else acc ++ [j]) []

end Equality

section Strict

/-- A number in strict JSON: null, unless it is finite. -/
def ofNumber (x : Number) : Json := if x.isFinite then float x else null

mutual

/-- A value in strict JSON: every number in it that is not finite becomes null. -/
def strict : Json → Json
  | float x => ofNumber x
  | arr xs => arr (strictItems xs)
  | obj fs => obj (strictFields fs)
  | j => j

/-- The items of a list in strict JSON. -/
def strictItems : List Json → List Json
  | [] => []
  | x :: r => strict x :: strictItems r

/-- The fields of an object in strict JSON. -/
def strictFields : List (String × Json) → List (String × Json)
  | [] => []
  | (k, v) :: r => (k, strict v) :: strictFields r

end

@[simp] theorem strict_str (s : String) : strict (str s) = str s := by simp [strict]

theorem strictItems_eq_map (xs : List Json) : strictItems xs = xs.map strict := by
  induction xs with
  | nil => simp [strictItems]
  | cons x r ih => simp [strictItems, ih]

theorem strictFields_eq_map (fs : List (String × Json)) :
    strictFields fs = fs.map fun f => (f.1, strict f.2) := by
  induction fs with
  | nil => simp [strictFields]
  | cons f r ih => simp [strictFields, ih]

end Strict

end Json
end Eligibility
