import Eligibility.Json.Reader
/-!
# How deep the values of a JSON text may lie

**Levels.**  A list or an object lies one level below what holds it.  A text is too
deep when a value is due where a bracket opens one level too many; a text that is
wrong before that bracket is wrong for its own reason.

**Functions.**
* `Json.placeBelow?`: the place of the first bracket below the allowed levels.
* `Json.isTooDeep`: whether reading a text comes to such a bracket.
-/

namespace Eligibility
namespace Json

/-- The most levels of a text from outside. -/
def levelLimit : Nat := 985

/-- The place of the first bracket that opens when no more levels are left, counted from a place;
what is quoted opens nothing. -/
def placeBelow? (quoted : Bool) (left place : Nat) : List Char → Option Nat
  | [] => none
  | ['\\'] => none
  | '\\' :: c :: r =>
      if quoted then placeBelow? true left (place + 2) r
      else placeBelow? false left (place + 1) (c :: r)
  | c :: r =>
      if quoted then placeBelow? (c ≠ '"') left (place + 1) r
      else if c = '[' ∨ c = '{' then
        match left with
        | 0 => some place
        | left + 1 => placeBelow? false left (place + 1) r
      else if c = ']' ∨ c = '}' then placeBelow? false (left + 1) (place + 1) r
      else placeBelow? (c = '"') left (place + 1) r

/-- Whether reading comes to a value below the allowed levels. -/
def isTooDeep (levels : Nat) (s : String) : Bool :=
  let cs := s.toList
  match placeBelow? false levels 0 cs with
  | none => false
  | some n =>
      match readAll (cs.take n) with
      | .error (.expectingValue, 0) => true
      | _ => false

end Json
end Eligibility
