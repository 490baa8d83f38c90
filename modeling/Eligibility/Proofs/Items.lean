import Eligibility.Proofs.Layout
import Eligibility.Proofs.Numerals
/-!
# What nodes stand for

**Items.**  A node stands for a policy, a clause, a rule, an entity, or the threshold of a
comparison, which is known by variable, operator and value; the two zeros are one value.

**Keys.**  The key of an item begins with its kind.  A variable may hold any characters, but
neither an operator nor a number is written with a colon, so that a threshold is read off its
key from the end.

**Results.**
* `append_cons_inj`: a text is taken apart at its last separator.
* `Number.brief_inj`: doubles with one text are the same.
* `Item.key_inj`: different items have different keys.
-/

namespace Eligibility

/-- What a node stands for. -/
inductive Item where
  | policy (name : String)
  | clause (name : String)
  | rule (id : String)
  | entity (name : String)
  | threshold (subject : String) (operator : Operator) (value : Rat)
  deriving DecidableEq

namespace Item

/-- The kind of the node of an item. -/
def kind : Item → NodeKind
  | policy _ => .policy
  | clause _ => .clause
  | rule _ => .condition
  | entity _ => .entity
  | threshold _ _ _ => .threshold

/-- The text that identifies the node of an item. -/
def key : Item → String
  | policy name => Node.policyKey name
  | clause name => Node.clauseKey name
  | rule id => Node.conditionKey id
  | entity name => Node.entityKey name
  | threshold subject o q => Node.thresholdKey subject o (.finite q)

/-- An item whose value, if it has one, is a double. -/
def IsDouble : Item → Prop
  | threshold _ _ q => Number.IsDouble (.finite q)
  | _ => True

end Item

section Separators

variable {α : Type} {c : α}

/-- Of two texts that are the same each has its last separator at the same place. -/
theorem append_cons_inj {xs ys xs' ys' : List α} (h : xs ++ c :: ys = xs' ++ c :: ys')
    (hys : c ∉ ys) (hys' : c ∉ ys') : xs = xs' ∧ ys = ys' := by
  rcases List.append_eq_append_iff.mp h with ⟨zs, hxs, hzs⟩ | ⟨zs, hxs, hzs⟩
  · cases zs with
    | nil => exact ⟨by simpa using hxs.symm, by simpa using hzs⟩
    | cons z zs =>
        have hrest : ys = zs ++ c :: ys' := (List.cons.inj hzs).2
        exact absurd (by simp [hrest]) hys
  · cases zs with
    | nil => exact ⟨by simpa using hxs, by simpa using hzs.symm⟩
    | cons z zs =>
        have hrest : ys' = zs ++ c :: ys := (List.cons.inj hzs).2
        exact absurd (by simp [hrest]) hys'

end Separators

section Texts

theorem Number.read?_brief {x : Number} (hx : x.isFinite = true) (hd : x.IsDouble) :
    Number.read? x.brief = some x.plain := by
  obtain ⟨n, b, hn, hvalue⟩ := Numeral.exists_numeral_brief hx hd
  rw [hn, Numeral.read?_signed, hvalue]

/-- Doubles with one text are the same. -/
theorem Number.brief_inj {p q : Rat} (hp : (Number.finite p).IsDouble)
    (hq : (Number.finite q).IsDouble) (h : (Number.finite p).brief = (Number.finite q).brief) :
    p = q := by
  have hread := Number.read?_brief rfl hp
  rw [h, Number.read?_brief rfl hq] at hread
  simpa [Number.plain] using hread.symm

/-- A number is written without a colon. -/
theorem Number.colon_not_mem_brief {x : Number} (hx : x.isFinite = true) (hd : x.IsDouble) :
    ':' ∉ x.brief := by
  obtain ⟨n, b, hn, -⟩ := Numeral.exists_numeral_brief hx hd
  intro hmem
  rw [hn] at hmem
  rcases Numeral.isNumeral_of_mem_signed _ hmem with hdigit | hsign
  · exact absurd hdigit (by decide)
  · exact absurd hsign (by decide)

theorem Operator.colon_not_mem_name (o : Operator) : ':' ∉ o.name.toList := by
  cases o <;> decide

theorem Operator.name_inj {o o' : Operator} (h : o.name = o'.name) : o = o' := by
  have hname := Operator.ofName?_name o
  rw [h, Operator.ofName?_name, Option.some.injEq] at hname
  exact hname.symm

end Texts

theorem Node.entityKey_inj {a b : String} : Node.entityKey a = Node.entityKey b ↔ a = b := by
  simp [Node.entityKey]

/-- Thresholds with one key are on one variable, by one operator, and of one value. -/
theorem Node.thresholdKey_inj {s s' : String} {o o' : Operator} {p q : Rat}
    (hp : (Number.finite p).IsDouble) (hq : (Number.finite q).IsDouble)
    (h : Node.thresholdKey s o (.finite p) = Node.thresholdKey s' o' (.finite q)) :
    s = s' ∧ o = o' ∧ p = q := by
  have hchars : (s.toList ++ ':' :: o.name.toList) ++ ':' :: (Number.finite p).brief =
      (s'.toList ++ ':' :: o'.name.toList) ++ ':' :: (Number.finite q).brief := by
    simpa [Node.thresholdKey] using congrArg String.toList h
  obtain ⟨hfront, hbrief⟩ := append_cons_inj hchars (Number.colon_not_mem_brief rfl hp)
    (Number.colon_not_mem_brief rfl hq)
  obtain ⟨hsubject, hname⟩ := append_cons_inj hfront (Operator.colon_not_mem_name o)
    (Operator.colon_not_mem_name o')
  exact ⟨String.toList_inj.mp hsubject, Operator.name_inj (String.toList_inj.mp hname),
    Number.brief_inj hp hq hbrief⟩

namespace Item

/-- A key says of what kind its item is. -/
theorem exists_key_eq (i : Item) : ∃ rest, i.key = Node.keyKind i.kind ++ rest := by
  cases i with
  | policy name => exact ⟨name, rfl⟩
  | clause name => exact ⟨name, rfl⟩
  | rule id => exact ⟨id, rfl⟩
  | entity name => exact ⟨name, rfl⟩
  | threshold s o q => exact ⟨_, Node.thresholdKey_eq s o (.finite q)⟩

theorem kind_eq_of_key {i j : Item} (h : i.key = j.key) : i.kind = j.kind := by
  obtain ⟨a, ha⟩ := exists_key_eq i
  obtain ⟨b, hb⟩ := exists_key_eq j
  by_contra hne
  exact Node.keyKind_append_ne hne a b (ha.symm.trans (h.trans hb))

/-- Different items have different keys. -/
theorem key_inj {i j : Item} (hi : i.IsDouble) (hj : j.IsDouble) (h : i.key = j.key) : i = j := by
  have hkind := kind_eq_of_key h
  cases i with
  | policy a =>
      cases j with
      | policy b => exact congrArg policy (Node.policyKey_inj.mp h)
      | _ => cases hkind
  | clause a =>
      cases j with
      | clause b => exact congrArg clause (Node.clauseKey_inj.mp h)
      | _ => cases hkind
  | rule a =>
      cases j with
      | rule b => exact congrArg rule (Node.conditionKey_inj.mp h)
      | _ => cases hkind
  | entity a =>
      cases j with
      | entity b => exact congrArg entity (Node.entityKey_inj.mp h)
      | _ => cases hkind
  | threshold s o p =>
      cases j with
      | threshold s' o' q =>
          obtain ⟨rfl, rfl, rfl⟩ := Node.thresholdKey_inj hi hj h
          rfl
      | _ => cases hkind

end Item
end Eligibility
