import Eligibility.Name.Entries
/-!
# Mappings given in other forms

**Forms.**  A mapping is an object, or a list of pairs: lists of two values, texts
of two characters, objects of two fields.  A key may be any name.

**Functions.**
* `Json.mapping`: the entries of a mapping.
* `Json.elements`: what a value is gone through as.
-/

namespace Eligibility
namespace Json

/-- Why a value is no mapping. -/
inductive MappingFault where
  | notPair (position length : Nat)
  | wrongType
  deriving DecidableEq

/-- The pair of a key and a value, if the key is a name. -/
def pairOf (k v : Json) : Except MappingFault (Name × Json) :=
  if Name.isUsable k then .ok (k, v) else .error .wrongType

/-- A pair in any of its forms. -/
def pair (position : Nat) : Json → Except MappingFault (Name × Json)
  | arr [k, v] => pairOf k v
  | arr xs => .error (.notPair position xs.length)
  | obj [(k, _), (v, _)] => .ok (str k, str v)
  | obj fs => .error (.notPair position fs.length)
  | str s =>
      match s.toList with
      | [a, b] => .ok (str (String.ofList [a]), str (String.ofList [b]))
      | cs => .error (.notPair position cs.length)
  | _ => .error .wrongType

/-- The pairs of a list from a position on. -/
def pairsFrom : Nat → List Json → Except MappingFault (List (Name × Json))
  | _, [] => .ok []
  | n, j :: r =>
      match pair n j with
      | .error f => .error f
      | .ok p => (pairsFrom (n + 1) r).map (p :: ·)

/-- What a value is gone through as: items, the keys of fields, or characters. -/
def elements? : Json → Option (List Json)
  | arr xs => some xs
  | obj fs => some (fs.map fun f => str f.1)
  | str s => some (s.toList.map fun c => str (String.ofList [c]))
  | _ => none

/-- The entries of a mapping. -/
def mapping : Json → Except MappingFault (Entries Json)
  | obj fs => .ok (Entries.ofFields fs)
  | j =>
      match elements? j with
      | some xs => (pairsFrom 0 xs).map Entries.ofPairs
      | none => .error .wrongType

@[simp] theorem mapping_obj (fs : List (String × Json)) :
    mapping (obj fs) = .ok (Entries.ofFields fs) := rfl

end Json
end Eligibility
