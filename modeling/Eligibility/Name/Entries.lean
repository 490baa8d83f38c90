import Eligibility.Name
/-!
# Values by names

**Form.**  Entries stand in the order in which their names first appear.  In data of
this library every name is a text; entries read from a file may have others, which
are carried along and never looked up.

**Results.**
* `get?_ofFields`: an entry of fields is found as among the fields.
* `lookup_eq`: fields of JSON are looked up as pairs are.
* `ofFields_map`: changing the values of fields changes those of the entries.
-/

namespace Eligibility

/-- Values by names. -/
abbrev Entries (α : Type) := List (Name × α)

namespace Entries

variable {α β : Type}

/-- Fields as entries. -/
def ofFields (fs : List (String × α)) : Entries α := fs.map fun f => (.str f.1, f.2)

/-- The value of a text. -/
def get? (k : String) : Entries α → Option α
  | [] => none
  | (n, v) :: r => if n.same (.str k) then some v else get? k r

/-- Entries with one value set: in place if the name is there, else at the end. -/
def put (k : Name) (v : α) : Entries α → Entries α
  | [] => [(k, v)]
  | (n, w) :: r => if n.alike k then (n, v) :: r else (n, w) :: put k v r

/-- The entries of pairs read in order, a later value replacing an earlier one. -/
def ofPairs (ps : List (Name × α)) : Entries α := ps.foldl (fun es p => put p.1 p.2 es) []

/-- Entries with each value changed. -/
def mapValues (f : α → β) (es : Entries α) : Entries β := es.map fun e => (e.1, f e.2)

/-- The value of a name of any sort. -/
def valueOf? (k : Name) : Entries α → Option α
  | [] => none
  | (n, v) :: r => if n.alike k then some v else valueOf? k r

/-- Whether two collections hold alike values under alike names. -/
def alike (values : α → α → Bool) (es fs : Entries α) : Bool :=
  decide (es.length = fs.length) && es.all fun e => (valueOf? e.1 fs).any (values e.2)

/-- Entries as the fields of an object, their names spelled by a function. -/
def spelled (spell : Name → String) (es : Entries Json) : List (String × Json) :=
  es.map fun e => (spell e.1, e.2)

theorem get?_ofFields (k : String) (fs : List (String × α)) :
    (ofFields fs).get? k = fs.lookup k := by
  induction fs with
  | nil => rfl
  | cons f r ih =>
      obtain ⟨n, v⟩ := f
      by_cases h : n = k
      · simp [ofFields, get?, h]
      · have h' : (k == n) = false := by simpa using fun e => h e.symm
        rw [List.lookup_cons, h']
        simpa [ofFields, get?, h] using ih

theorem lookup_eq (k : String) (fs : List (String × Json)) : fs.lookup k = Json.lookup k fs := by
  induction fs with
  | nil => rfl
  | cons f r ih =>
      obtain ⟨n, v⟩ := f
      by_cases h : n = k
      · simp [Json.lookup, h]
      · have h' : (k == n) = false := by simpa using fun e => h e.symm
        rw [List.lookup_cons, h']
        simpa [Json.lookup, h] using ih

theorem ofFields_map (f : α → β) (fs : List (String × α)) :
    (ofFields fs).mapValues f = ofFields (fs.map fun p => (p.1, f p.2)) := by
  simp [ofFields, mapValues]

end Entries
end Eligibility
