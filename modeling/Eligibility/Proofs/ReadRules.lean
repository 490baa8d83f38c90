import Mathlib.Data.List.DropRight
import Eligibility.Proofs.Acceptance
import Eligibility.Proofs.Doubles
import Eligibility.Proofs.Readings
/-!
# Rules that are read from records

**Blanks.**  An identifier loses the blanks around it when it is read, and has none to lose
afterwards.

**Depth.**  A rule is read to a bounded number of levels, and has no more.

**Numbers.**  A number that is read is rounded, or stands as it is in the JSON value; so the
numbers of rules are doubles when those of the payload are.

**Results.**
* `strip_strip`: a text without blanks around it stays as it is.
* `Rule.of_readTo`, `RuleSet.of_ofPayload`: the identifiers and levels of rules that are read.
* `Schema.isDouble_of_number`, `RuleSet.hasDoubles_of_ofPayload`: their numbers.
-/

namespace Eligibility

namespace Text

theorem stripRight_eq (cs : List Char) : stripRight cs = cs.rdropWhile isBlank := rfl

/-- A text that begins without blank, and still does without its last characters. -/
theorem stripLeft_stripRight_stripLeft (cs : List Char) :
    stripLeft (stripRight (stripLeft cs)) = stripRight (stripLeft cs) := by
  rw [stripRight_eq]
  cases h : (stripLeft cs).rdropWhile isBlank with
  | nil => rfl
  | cons c r =>
      obtain ⟨t, ht⟩ := h ▸ List.rdropWhile_prefix isBlank (stripLeft cs)
      have hc : isBlank c = false := by
        have hhead := List.head?_dropWhile_not isBlank cs
        rw [show cs.dropWhile isBlank = c :: (r ++ t) from ht.symm] at hhead
        exact hhead
      simp [stripLeft, hc]

theorem strip_strip (s : String) : strip (strip s) = strip s := by
  have h : stripChars (stripChars s.toList) = stripChars s.toList := by
    rw [stripChars, stripChars, stripLeft_stripRight_stripLeft, stripRight_eq, stripRight_eq,
      List.rdropWhile_idempotent]
  simp [strip, h]

end Text

namespace Json

mutual

/-- The floating-point numbers in a JSON value. -/
def floats : Json → List Number
  | float x => [x]
  | arr js => floatsOfItems js
  | obj fs => floatsOfFields fs
  | _ => []

/-- The floating-point numbers in the items of a list. -/
def floatsOfItems : List Json → List Number
  | [] => []
  | j :: r => floats j ++ floatsOfItems r

/-- The floating-point numbers in the values of fields. -/
def floatsOfFields : List (String × Json) → List Number
  | [] => []
  | (_, j) :: r => floats j ++ floatsOfFields r

end

theorem floatsOfItems_eq (js : List Json) : floatsOfItems js = js.flatMap floats := by
  induction js with
  | nil => rfl
  | cons j r ih => rw [floatsOfItems, ih, List.flatMap_cons]

theorem floatsOfFields_eq (fs : List (String × Json)) :
    floatsOfFields fs = fs.flatMap fun f => floats f.2 := by
  induction fs with
  | nil => rfl
  | cons f r ih => rw [floatsOfFields, ih, List.flatMap_cons]

/-- Whether the floating-point numbers in a JSON value are doubles. -/
def HasDoubles (j : Json) : Prop := ∀ x ∈ j.floats, x.IsDouble

instance : DecidablePred HasDoubles := fun j =>
  inferInstanceAs (Decidable (∀ x ∈ j.floats, x.IsDouble))

theorem HasDoubles.of_mem_arr {js : List Json} {j : Json} (h : (arr js).HasDoubles)
    (hj : j ∈ js) : j.HasDoubles := by
  intro x hx
  refine h x ?_
  rw [floats, floatsOfItems_eq]
  exact List.mem_flatMap.mpr ⟨j, hj, hx⟩

theorem HasDoubles.of_mem_obj {fs : List (String × Json)} {k : String} {j : Json}
    (h : (obj fs).HasDoubles) (hj : (k, j) ∈ fs) : j.HasDoubles := by
  intro x hx
  refine h x ?_
  rw [floats, floatsOfFields_eq]
  exact List.mem_flatMap.mpr ⟨(k, j), hj, hx⟩

end Json

open Schema

/-- A number that is read is a double. -/
theorem Schema.isDouble_of_number {j : Json} {x : Number} (hj : j.HasDoubles)
    (h : number j = .ok x) : x.IsDouble := by
  unfold number at h
  split at h
  · cases h
    exact hj x (by simp [Json.floats])
  · split at h
    · next hx =>
      cases h
      exact Number.isDouble_ofInt? hx
    · cases h
  · next b =>
    cases h
    cases b <;> decide +kernel
  · split at h
    · next hx =>
      cases h
      exact Number.isDouble_read? hx
    · split at h
      · next hx =>
        cases h
        split_ifs at hx
        exact Number.isDouble_read? hx
      · cases h
  · cases h

theorem Schema.exists_of_nullable {α : Type} {read : Reader α} {j : Json} {a : α}
    (h : nullable read j = .ok (some a)) : read j = .ok a := by
  unfold nullable at h
  split at h
  · cases h
  · obtain ⟨b, hb, hab⟩ := Checked.map_eq_ok.mp h
    exact Option.some.inj hab ▸ hb

/-- Naming the kind of an operand adds no numbers. -/
theorem Operand.floats_tagged (j : Json) : (tagged j).floats = j.floats := by
  cases j <;> simp [tagged, Json.floats, Json.floatsOfFields]

namespace Head

/-- A head without blanks around its identifiers. -/
structure IsTrimmed (h : Head) : Prop where
  id : Text.strip h.id = h.id
  subject : Text.strip h.subject = h.subject
  clause : Text.strip h.clause = h.clause

/-- A head whose numbers are doubles. -/
structure HasDoubles (h : Head) : Prop where
  value : ∀ x, h.value = some (.number x) → x.IsDouble
  confidence : ∀ x, h.confidence = some x → x.IsDouble

end Head

namespace Rule

theorem strip_of_identifier {j : Json} {s : String} (h : identifier j = .ok s) :
    Text.strip s = s := by
  unfold identifier at h
  split at h
  · cases h
    decide
  · cases h
    exact Text.strip_strip _
  · cases h

theorem strip_of_optional {k : String} {fs : List (String × Json)} {s : String}
    (h : optional k "" identifier fs = .ok s) : Text.strip s = s := by
  rcases exists_of_optional h with rfl | ⟨j, -, hj⟩
  · decide
  · exact strip_of_identifier hj

theorem isDouble_of_operand {j : Json} {x : Number} (hj : j.HasDoubles)
    (h : operand j = .ok (some (.number x))) : x.IsDouble := by
  have hread := exists_of_nullable h
  have hj : (Operand.tagged j).HasDoubles := by rwa [Json.HasDoubles, Operand.floats_tagged]
  generalize Operand.tagged j = t at hread hj
  unfold Operand.read at hread
  split at hread
  · split at hread
    · cases hread
    · split at hread
      · split at hread
        · next k _ =>
          have hread := Checked.under_eq_ok.mp hread
          cases k with
          | numeric =>
              obtain ⟨y, hy, hyx⟩ := Checked.map_eq_ok.mp hread
              obtain ⟨v, hv, hvy⟩ := exists_of_required hy
              cases hyx
              exact isDouble_of_number (hj.of_mem_obj hv) hvy
          | string =>
              obtain ⟨y, -, hyx⟩ := Checked.map_eq_ok.mp hread
              cases hyx
          | boolean =>
              obtain ⟨y, -, hyx⟩ := Checked.map_eq_ok.mp hread
              cases hyx
          | stringSet =>
              obtain ⟨y, -, hyx⟩ := Checked.map_eq_ok.mp hread
              cases hyx
        · cases hread
      · cases hread
  · cases hread

/-- The fields from which the parts of a rule are read. -/
theorem exists_of_readFields {below : Reader Rule} {fs : List (String × Json)} {r : Rule}
    (h : readFields below fs = .ok r) :
    ∃ id subject operator value clause confidence group children,
      r = make id subject operator value clause confidence group children ∧
        optional "rule_id" "" identifier fs = .ok id ∧
        optional "variable" "" identifier fs = .ok subject ∧
        optional "clause_reference" "" identifier fs = .ok clause ∧
        optional "value" none operand fs = .ok value ∧
        optional "confidence" none (nullable Schema.number) fs = .ok confidence ∧
        optional "children" [] (sequence below) fs = .ok children := by
  obtain ⟨_, children, h7, hchildren, rfl⟩ := Checked.ap_eq_ok.mp h
  obtain ⟨_, group, h6, -, rfl⟩ := Checked.ap_eq_ok.mp h7
  obtain ⟨_, confidence, h5, hconfidence, rfl⟩ := Checked.ap_eq_ok.mp h6
  obtain ⟨_, clause, h4, hclause, rfl⟩ := Checked.ap_eq_ok.mp h5
  obtain ⟨_, value, h3, hvalue, rfl⟩ := Checked.ap_eq_ok.mp h4
  obtain ⟨_, operator, h2, -, rfl⟩ := Checked.ap_eq_ok.mp h3
  obtain ⟨_, subject, h1, hsubject, rfl⟩ := Checked.ap_eq_ok.mp h2
  obtain ⟨id, hid, rfl⟩ := Checked.map_eq_ok.mp h1
  exact ⟨id, subject, operator, value, clause, confidence, group, children, rfl, hid, hsubject,
    hclause, hvalue, hconfidence, hchildren⟩

theorem isTrimmed_of_readFields {below : Reader Rule} {fs : List (String × Json)} {r : Rule}
    (h : readFields below fs = .ok r) : r.head.IsTrimmed := by
  obtain ⟨id, subject, operator, value, clause, confidence, group, children, rfl, hid, hsubject,
    hclause, -⟩ := exists_of_readFields h
  exact ⟨strip_of_optional hid, strip_of_optional hsubject, strip_of_optional hclause⟩

theorem hasDoubles_of_readFields {below : Reader Rule} {fs : List (String × Json)} {r : Rule}
    (h : readFields below fs = .ok r) (hfs : (Json.obj fs).HasDoubles) : r.head.HasDoubles := by
  obtain ⟨id, subject, operator, value, clause, confidence, group, children, rfl, -, -, -, hvalue,
    hconfidence, -⟩ := exists_of_readFields h
  constructor
  · rintro x rfl
    obtain h | ⟨j, hj, hread⟩ := exists_of_optional hvalue
    · cases h
    · exact isDouble_of_operand (hfs.of_mem_obj hj) hread
  · rintro x rfl
    obtain h | ⟨j, hj, hread⟩ := exists_of_optional hconfidence
    · cases h
    · exact isDouble_of_number (hfs.of_mem_obj hj) (exists_of_nullable hread)

/-- The rules below a rule that is read are read from the items of a field. -/
theorem children_of_readFields {below : Reader Rule} {fs : List (String × Json)} {r : Rule}
    (h : readFields below fs = .ok r) {c : Rule} (hc : c ∈ r.children) :
    ∃ k js, (k, Json.arr js) ∈ fs ∧ ∃ j ∈ js, below j = .ok c := by
  obtain ⟨id, subject, operator, value, clause, confidence, group, children, rfl, -, -, -, -, -,
    hchildren⟩ := exists_of_readFields h
  obtain rfl | ⟨j, hj, hread⟩ := exists_of_optional hchildren
  · cases hc
  · obtain ⟨js, rfl, hitem⟩ := exists_of_mem_sequence hread hc
    exact ⟨_, js, hj, hitem⟩

theorem exists_of_readTo {levels : Nat} {j : Json} {r : Rule} (h : readTo (levels + 1) j = .ok r) :
    ∃ fs, j = .obj fs ∧ readFields (readTo levels) fs = .ok r := by
  unfold readTo record at h
  split at h
  · exact ⟨_, rfl, h⟩
  · cases h

theorem depthOf_le {rs : List Rule} {n : Nat} (h : ∀ r ∈ rs, r.depth ≤ n) : depthOf rs ≤ n := by
  induction rs with
  | nil => simp [depthOf]
  | cons r rs ih =>
      rw [depthOf]
      exact Nat.max_le.mpr ⟨h r (by simp), ih fun s hs => h s (List.mem_cons_of_mem _ hs)⟩

/-- The rules of a tree that is read have trimmed heads, and no more levels than it is read
to. -/
theorem of_readTo : ∀ {levels : Nat} {j : Json} {r : Rule}, readTo levels j = .ok r →
    ∀ t ∈ r.walk, t.head.IsTrimmed ∧ t.depth ≤ levels
  | 0, j, r, h, t, ht => by cases h
  | levels + 1, j, .node k cs, h, t, ht => by
      obtain ⟨fs, rfl, hread⟩ := exists_of_readTo h
      rcases List.mem_cons.mp (by simpa [walk] using ht) with rfl | ht
      · refine ⟨isTrimmed_of_readFields hread, ?_⟩
        rw [depth]
        refine Nat.succ_le_succ (depthOf_le fun c hc => ?_)
        obtain ⟨_, _, -, i, -, hi⟩ := children_of_readFields hread hc
        exact (of_readTo hi c (mem_walk_self c)).2
      · obtain ⟨c, hc, ht⟩ := mem_walkAll.mp ht
        obtain ⟨_, _, -, i, -, hi⟩ := children_of_readFields hread hc
        obtain ⟨ht, hdepth⟩ := of_readTo hi t ht
        exact ⟨ht, by omega⟩

theorem hasDoubles_of_readTo : ∀ {levels : Nat} {j : Json} {r : Rule}, readTo levels j = .ok r →
    j.HasDoubles → ∀ t ∈ r.walk, t.head.HasDoubles
  | 0, j, r, h, hj, t, ht => by cases h
  | levels + 1, j, .node k cs, h, hj, t, ht => by
      obtain ⟨fs, rfl, hread⟩ := exists_of_readTo h
      rcases List.mem_cons.mp (by simpa [walk] using ht) with rfl | ht
      · exact hasDoubles_of_readFields hread hj
      · obtain ⟨c, hc, ht⟩ := mem_walkAll.mp ht
        obtain ⟨_, _, hjs, i, hmem, hi⟩ := children_of_readFields hread hc
        exact hasDoubles_of_readTo hi ((hj.of_mem_obj hjs).of_mem_arr hmem) t ht

end Rule

namespace RuleSet

/-- The rules of a rule set that is read are read from the items of a field. -/
theorem exists_read_of_read {j : Json} {s : RuleSet} (h : read j = .ok s) {r : Rule}
    (hr : r ∈ s.rules) :
    ∃ fs k js, j = .obj fs ∧ (k, Json.arr js) ∈ fs ∧ ∃ i ∈ js, Rule.read i = .ok r := by
  unfold read record at h
  split at h
  · obtain ⟨_, domains, h3, -, rfl⟩ := Checked.ap_eq_ok.mp h
    obtain ⟨_, documents, h2, -, rfl⟩ := Checked.ap_eq_ok.mp h3
    obtain ⟨_, rules, h1, hrules, rfl⟩ := Checked.ap_eq_ok.mp h2
    obtain ⟨version, -, rfl⟩ := Checked.map_eq_ok.mp h1
    rcases exists_of_optional hrules with rfl | ⟨k, hk, hread⟩
    · cases hr
    · obtain ⟨js, rfl, hitem⟩ := exists_of_mem_sequence hread hr
      exact ⟨_, _, js, rfl, hk, hitem⟩
  · cases h

theorem read_of_ofPayload {payload : Json} {s : RuleSet} (h : ofPayload payload = .ok s) :
    read payload = .ok s := by
  unfold ofPayload at h
  split at h
  · split at h
    · next hs =>
      cases h
      exact hs
    · cases h
  · cases h

/-- The rules of a payload have trimmed heads, and not too many levels. -/
theorem of_ofPayload {payload : Json} {s : RuleSet} (h : ofPayload payload = .ok s) {r : Rule}
    (hr : r ∈ Rule.walkAll s.rules) : r.head.IsTrimmed ∧ r.depth ≤ Rule.levelLimit := by
  obtain ⟨t, ht, hr⟩ := Rule.mem_walkAll.mp hr
  obtain ⟨_, _, _, -, -, i, -, hi⟩ := exists_read_of_read (read_of_ofPayload h) ht
  exact Rule.of_readTo hi r hr

/-- The rules of a payload of doubles have doubles. -/
theorem hasDoubles_of_ofPayload {payload : Json} {s : RuleSet} (h : ofPayload payload = .ok s)
    (hpayload : payload.HasDoubles) {r : Rule} (hr : r ∈ Rule.walkAll s.rules) :
    r.head.HasDoubles := by
  obtain ⟨t, ht, hr⟩ := Rule.mem_walkAll.mp hr
  obtain ⟨fs, _, js, rfl, hjs, i, hmem, hi⟩ := exists_read_of_read (read_of_ofPayload h) ht
  exact Rule.hasDoubles_of_readTo hi ((hpayload.of_mem_obj hjs).of_mem_arr hmem) r hr

/-- A payload that is parsed is read, and what is read is accepted. -/
theorem of_parse {cfg : Settings} {payload : Json} {s : RuleSet} (h : parse cfg payload = .ok s) :
    ofPayload payload = .ok s ∧ s.IsAccepted := by
  unfold parse at h
  split at h
  · cases h
  · next t ht =>
    obtain ⟨haccepted, rfl⟩ := isAccepted_of_validate h
    exact ⟨ht, haccepted⟩

end RuleSet
end Eligibility
