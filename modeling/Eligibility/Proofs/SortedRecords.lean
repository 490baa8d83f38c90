import Eligibility.Proofs.WrittenGraphs
/-!
# Records with sorted fields are read back

**Sorting.**  The canonical form of a record has the fields of every object in the order of
their keys, and a text alone tells them apart.  A field is found wherever it stands, so that a
reader sees the same values as before, each in its own canonical form.

**Records.**  Reading normalizes what it is given: it takes blanks off identifiers, gives bare
operands a kind, makes sets of lists and tests bounds.  What was read once is not changed by
being read again.

**Results.**
* `Json.lookup_sorted`, `Json.read_canonical`: sorted fields are found, and canonical texts read.
* `Rule.readTo_sorted`: a rule is read from its canonical record.
* `Clause.read_sorted`, `Document.read_sorted`: so are the documents.
-/

namespace Eligibility

namespace Json

section Sorting

theorem sortedItems_eq_map (js : List Json) : sortedItems js = js.map sorted := by
  induction js with
  | nil => rfl
  | cons j r ih => rw [sortedItems, ih, List.map_cons]

theorem sortedFields_eq_map (fs : List (String × Json)) :
    sortedFields fs = fs.map fun f => (f.1, f.2.sorted) := by
  induction fs with
  | nil => rfl
  | cons f r ih => rw [sortedFields, ih, List.map_cons]

theorem sortFields_perm (fs : List (String × Json)) : (sortFields fs).Perm fs :=
  List.mergeSort_perm _ _

theorem keys_sortedFields (fs : List (String × Json)) :
    (sortedFields fs).map (·.1) = fs.map (·.1) := by
  simp [sortedFields_eq_map, Function.comp_def]

/-- A field is found where its key stands, if no other field has that key. -/
theorem lookup_eq_some_iff {fs : List (String × Json)} (hfs : (fs.map (·.1)).Nodup) {k : String}
    {v : Json} : lookup k fs = some v ↔ (k, v) ∈ fs :=
  ⟨mem_of_lookup, fun h => Entries.lookup_eq k fs ▸ lookup_of_mem hfs h⟩

theorem lookup_sortedFields (k : String) (fs : List (String × Json)) :
    lookup k (sortedFields fs) = (lookup k fs).map sorted := by
  induction fs with
  | nil => rfl
  | cons f r ih =>
      obtain ⟨k', v⟩ := f
      rw [sortedFields, lookup, lookup, ih]
      split_ifs <;> rfl

/-- Sorting the fields of an object sorts the value that is found under a key. -/
theorem lookup_sorted {fs : List (String × Json)} (hfs : (fs.map (·.1)).Nodup) (k : String) :
    lookup k (sortFields (sortedFields fs)) = (lookup k fs).map sorted := by
  rw [← lookup_sortedFields]
  have hkeys : ((sortedFields fs).map (·.1)).Nodup := by rwa [keys_sortedFields]
  have hperm := sortFields_perm (sortedFields fs)
  ext v
  rw [lookup_eq_some_iff hkeys, lookup_eq_some_iff ((hperm.map (·.1)).nodup_iff.mpr hkeys),
    hperm.mem_iff]

/-- A value that its text gives back still is one when it is sorted. -/
theorem IsPortable.sorted {j : Json} (h : j.IsPortable) : j.sorted.IsPortable := by
  induction h with
  | null => exact .null
  | bool b => exact .bool b
  | int n => exact .int n
  | float hx hd => exact .float hx hd
  | str s => exact .str s
  | arr _ ih =>
      rw [Json.sorted, sortedItems_eq_map]
      refine .arr fun j hj => ?_
      obtain ⟨i, hi, rfl⟩ := List.mem_map.mp hj
      exact ih i hi
  | @obj fs hkeys _ ih =>
      have hperm := sortFields_perm (sortedFields fs)
      rw [Json.sorted]
      refine .obj ?_ fun f hf => ?_
      · rw [(hperm.map (·.1)).nodup_iff, keys_sortedFields]
        exact hkeys
      · rw [hperm.mem_iff, sortedFields_eq_map] at hf
        obtain ⟨g, hg, rfl⟩ := List.mem_map.mp hf
        exact ih g hg

mutual

/-- Sorting adds no integers. -/
theorem integers_sorted : ∀ {j : Json} {n : Int}, n ∈ j.sorted.integers → n ∈ j.integers
  | .arr js, n, hn => by
      rw [sorted, integers] at hn
      rw [integers]
      exact integersOfItems_sorted hn
  | .obj fs, n, hn => by
      rw [sorted, integers, integersOfFields_eq] at hn
      obtain ⟨f, hf, hn⟩ := List.mem_flatMap.mp hn
      rw [integers]
      refine integersOfFields_sorted ?_
      rw [integersOfFields_eq]
      exact List.mem_flatMap.mpr ⟨f, (sortFields_perm _).mem_iff.mp hf, hn⟩
  | .null, n, hn => hn
  | .bool _, n, hn => hn
  | .int _, n, hn => hn
  | .float _, n, hn => hn
  | .str _, n, hn => hn

theorem integersOfItems_sorted : ∀ {js : List Json} {n : Int},
    n ∈ integersOfItems (sortedItems js) → n ∈ integersOfItems js
  | [], n, hn => hn
  | j :: r, n, hn => by
      rw [sortedItems, integersOfItems] at hn
      rw [integersOfItems, List.mem_append]
      exact (List.mem_append.mp hn).imp integers_sorted integersOfItems_sorted

theorem integersOfFields_sorted : ∀ {fs : List (String × Json)} {n : Int},
    n ∈ integersOfFields (sortedFields fs) → n ∈ integersOfFields fs
  | [], n, hn => hn
  | (k, j) :: r, n, hn => by
      rw [sortedFields, integersOfFields] at hn
      rw [integersOfFields, List.mem_append]
      exact (List.mem_append.mp hn).imp integers_sorted integersOfFields_sorted

end

/-- The canonical text of a value is read as the value with its fields sorted. -/
theorem read_canonical {j : Json} (hj : j.IsPortable) (hi : j.HasShortIntegers) :
    read j.canonical = .ok j.sorted :=
  read_compact hj.sorted fun n hn => hi n (integers_sorted hn)

end Sorting

section Leaves

theorem sorted_str (s : String) : (str s).sorted = str s := by simp [sorted]

theorem sorted_bool (b : Bool) : (bool b).sorted = bool b := by simp [sorted]

theorem sorted_arr (js : List Json) : (arr js).sorted = arr (js.map sorted) := by
  rw [sorted, sortedItems_eq_map]

theorem sorted_strs (xs : List String) : (strs xs).sorted = strs xs := by
  simp [strs, sorted_arr, Function.comp_def, sorted_str]

theorem sorted_str? (o : Option String) : (str? o).sorted = str? o := by
  cases o <;> simp [str?, sorted]

theorem sorted_float? (o : Option Number) : (float? o).sorted = float? o := by
  cases o <;> simp [float?, sorted]

end Leaves

end Json

open Schema Json

namespace Schema

variable {α : Type} {k : String} {read : Reader α} {fs : List (String × Json)} {v : Json} {a : α}

/-- The fields of a record in its canonical form. -/
def canonicalFields (fs : List (String × Json)) : List (String × Json) :=
  sortFields (sortedFields fs)

theorem sorted_obj (fs : List (String × Json)) : (obj fs).sorted = .obj (canonicalFields fs) := by
  rw [sorted, canonicalFields]

variable (hfs : (fs.map (·.1)).Nodup) (hv : lookup k fs = some v) (hread : read v.sorted = .ok a)

include hfs hv hread

theorem required_canonical : required k read (canonicalFields fs) = .ok a := by
  rw [required, canonicalFields, lookup_sorted hfs, hv]
  exact Checked.under_eq_ok.mpr hread

theorem optional_canonical {standard : α} :
    optional k standard read (canonicalFields fs) = .ok a := by
  rw [optional, canonicalFields, lookup_sorted hfs, hv]
  exact Checked.under_eq_ok.mpr hread

omit hfs hv hread

/-- Items are read from records from which each of them is. -/
theorem itemsFrom_map {write : α → Json} {xs : List α} (h : ∀ x ∈ xs, read (write x) = .ok x)
    (n : ℕ) : itemsFrom read n (xs.map write) = .ok xs := by
  induction xs generalizing n with
  | nil => rfl
  | cons x r ih =>
      obtain ⟨hx, hr⟩ := List.forall_mem_cons.mp h
      rw [List.map_cons, itemsFrom, hx, ih hr]
      rfl

theorem sequence_map {write : α → Json} {xs : List α} (h : ∀ x ∈ xs, read (write x) = .ok x) :
    sequence read (.arr (xs.map write)) = .ok xs := itemsFrom_map h 0

theorem nullable_str? (o : Option String) : nullable Schema.text (str? o) = .ok o := by
  cases o <;> rfl

theorem nullable_float? {number : Reader Number} {o : Option Number}
    (h : ∀ x, o = some x → number (.float x) = .ok x) : nullable number (float? o) = .ok o := by
  cases o with
  | none => rfl
  | some x =>
      rw [float?, nullable, h x rfl]
      · rfl
      · intro hnull
        cases hnull

theorem nonEmptyText_str {s : String} (h : s ≠ "") : nonEmptyText (.str s) = .ok s := if_neg h

/-- A number that was read between two bounds is read again. -/
theorem numberWithin_float {low high : ℕ} {j : Json} {x : Number}
    (h : numberWithin low high j = .ok x) : numberWithin low high (.float x) = .ok x := by
  unfold numberWithin at h ⊢
  cases hn : number j with
  | flawed fs =>
      rw [hn] at h
      cases h
  | ok y =>
      rw [hn, Checked.bind_ok] at h
      split_ifs at h with hhigh hlow
      · cases h
      · cases h
      · cases h
        rw [number, Checked.bind_ok, if_neg hhigh, if_neg hlow]

end Schema

namespace Operand

theorem sorted_bare (v : Operand) : v.bare.sorted = v.bare := by
  cases v with
  | texts s => exact sorted_strs s.members
  | _ => simp [bare, sorted]

/-- The record of an operand is sorted. -/
theorem sorted_toJson (v : Operand) : v.toJson.sorted = v.toJson := by
  have hkeys : decide (("kind", Json.str v.kind.name).1 ≤ ("value", v.bare).1) = true :=
    (by decide : decide ("kind" ≤ "value") = true)
  have hsorted : sortFields [("kind", Json.str v.kind.name), ("value", v.bare)] =
      [("kind", Json.str v.kind.name), ("value", v.bare)] :=
    List.mergeSort_of_pairwise (List.pairwise_pair.mpr hkeys)
  rw [toJson, sorted, sortedFields_eq_map, List.map_cons, List.map_cons, List.map_nil, sorted_bare,
    sorted, hsorted]
  all_goals
    intro _ heq
    cases heq

end Operand

section Heads

/-- An operand is read from the field of a rule, also where there is none. -/
theorem Rule.operand_elim (o : Option Operand) :
    Rule.operand (o.elim .null Operand.toJson) = .ok o := by
  cases o with
  | none => rfl
  | some v =>
      have htagged : Operand.tagged v.toJson = v.toJson := rfl
      rw [Option.elim, Rule.operand, htagged, nullable, Operand.read_toJson]
      · rfl
      · intro hnull
        cases hnull

theorem Rule.sorted_elim (o : Option Operand) :
    (o.elim .null Operand.toJson).sorted = o.elim .null Operand.toJson := by
  cases o with
  | none => simp [sorted]
  | some v => exact Operand.sorted_toJson v

theorem Rule.identifier_str {s : String} (h : Text.strip s = s) :
    Rule.identifier (.str s) = .ok s := by
  rw [Rule.identifier, h]

theorem choice_operator (o : Operator) :
    choice Operator.all Operator.name (.str o.name) = .ok o := by
  have hfind : Operator.all.find? (fun p => p.name == o.name) = some o := Operator.ofName?_name o
  rw [choice, hfind]

theorem choice_kind (k : ValueKind) :
    choice ValueKind.all ValueKind.name (.str k.name) = .ok k := by
  have hfind : ValueKind.all.find? (fun l => l.name == k.name) = some k := ValueKind.ofName?_name k
  rw [choice, hfind]

end Heads

namespace Rule

theorem toJsonAll_eq_map (rs : List Rule) : toJsonAll rs = rs.map toJson := by
  induction rs with
  | nil => rfl
  | cons r rs ih => rw [toJsonAll, ih, List.map_cons]

/-- The fields of the record of a rule. -/
def fields (h : Head) (cs : List Rule) : List (String × Json) := [
  ("rule_id", .str h.id), ("variable", .str h.subject), ("operator", .str h.operator.name),
  ("value", h.value.elim .null Operand.toJson), ("clause_reference", .str h.clause),
  ("confidence", Json.float? h.confidence), ("logical_group", Json.str? h.group),
  ("children", .arr (cs.map toJson))]

theorem toJson_node (h : Head) (cs : List Rule) : toJson (.node h cs) = .obj (fields h cs) := by
  rw [toJson, headJson, toJsonAll_eq_map, fields]

theorem keys_fields (h : Head) (cs : List Rule) : ((fields h cs).map (·.1)).Nodup :=
  (by decide : ["rule_id", "variable", "operator", "value", "clause_reference", "confidence",
    "logical_group", "children"].Nodup)

/-- A rule is read from its canonical record if the rules below it are. -/
theorem readFields_canonical {below : Reader Rule} {h : Head} {cs : List Rule}
    (hh : h.IsTrimmed) (hcs : ∀ c ∈ cs, below c.toJson.sorted = .ok c) :
    readFields below (canonicalFields (fields h cs)) = .ok (.node h cs) := by
  have hkeys := keys_fields h cs
  have hid : optional "rule_id" "" identifier (canonicalFields (fields h cs)) = .ok h.id :=
    optional_canonical hkeys rfl (by rw [sorted_str, identifier_str hh.id])
  have hsubject : optional "variable" "" identifier (canonicalFields (fields h cs)) =
      .ok h.subject :=
    optional_canonical hkeys rfl (by rw [sorted_str, identifier_str hh.subject])
  have hoperator : Schema.required "operator" (choice Operator.all Operator.name)
      (canonicalFields (fields h cs)) = .ok h.operator :=
    required_canonical hkeys rfl (by rw [sorted_str, choice_operator])
  have hvalue : optional "value" none operand (canonicalFields (fields h cs)) = .ok h.value :=
    optional_canonical hkeys rfl (by rw [sorted_elim, operand_elim])
  have hclause : optional "clause_reference" "" identifier (canonicalFields (fields h cs)) =
      .ok h.clause :=
    optional_canonical hkeys rfl (by rw [sorted_str, identifier_str hh.clause])
  have hconfidence : optional "confidence" none (nullable Schema.number)
      (canonicalFields (fields h cs)) = .ok h.confidence :=
    optional_canonical hkeys rfl (by rw [sorted_float?, nullable_float? fun _ _ => rfl])
  have hgroup : optional "logical_group" none (nullable Schema.text)
      (canonicalFields (fields h cs)) = .ok h.group :=
    optional_canonical hkeys rfl (by rw [sorted_str?, nullable_str?])
  have hchildren : optional "children" [] (sequence below) (canonicalFields (fields h cs)) =
      .ok cs := by
    refine optional_canonical hkeys rfl ?_
    rw [sorted_arr, List.map_map]
    exact sequence_map hcs
  rw [readFields, hid, hsubject, hoperator, hvalue, hclause, hconfidence, hgroup, hchildren]
  rfl

/-- A rule with trimmed heads is read from its canonical record, if it has no more levels than
are read. -/
theorem readTo_sorted : ∀ (r : Rule) {levels : ℕ}, (∀ t ∈ r.walk, t.head.IsTrimmed) →
    r.depth ≤ levels → readTo levels r.toJson.sorted = .ok r
  | .node h cs, 0, _, hdepth => by simp [depth] at hdepth
  | .node h cs, levels + 1, hwalk, hdepth => by
      have hbelow : ∀ c ∈ cs, readTo levels c.toJson.sorted = .ok c := by
        intro c hc
        refine readTo_sorted c (fun t ht => hwalk t ?_) ?_
        · rw [walk]
          exact List.mem_cons_of_mem _ (mem_walkAll.mpr ⟨c, hc, ht⟩)
        · have hc := depth_le_depthOf hc
          rw [depth] at hdepth
          omega
      rw [toJson_node, sorted_obj, readTo]
      exact readFields_canonical (hwalk _ (mem_walk_self _)) hbelow

end Rule

namespace Clause

/-- A clause as reading leaves it: with an identifier, and a readability between zero and one. -/
structure IsReadable (c : Clause) : Prop where
  id : c.id ≠ ""
  readability : ∀ x, c.readability = some x → numberWithin 0 1 (.float x) = .ok x

theorem isReadable_of_read {j : Json} {c : Clause} (h : read j = .ok c) : c.IsReadable := by
  unfold read record at h
  split at h
  · obtain ⟨_, ambiguous, h3, -, rfl⟩ := Checked.ap_eq_ok.mp h
    obtain ⟨_, readability, h2, hreadability, rfl⟩ := Checked.ap_eq_ok.mp h3
    obtain ⟨_, text, h1, -, rfl⟩ := Checked.ap_eq_ok.mp h2
    obtain ⟨id, hid, rfl⟩ := Checked.map_eq_ok.mp h1
    obtain ⟨i, -, hi⟩ := exists_of_required hid
    refine ⟨ne_of_nonEmptyText hi, ?_⟩
    rintro x rfl
    obtain hnone | ⟨i, -, hi⟩ := exists_of_optional hreadability
    · cases hnone
    · exact numberWithin_float (exists_of_nullable hi)
  · cases h

/-- The fields of the record of a clause. -/
def fields (c : Clause) : List (String × Json) := [
  ("clause_id", .str c.id), ("text", .str c.text), ("readability", Json.float? c.readability),
  ("ambiguous", .bool c.ambiguous)]

theorem keys_fields (c : Clause) : (c.fields.map (·.1)).Nodup :=
  (by decide : ["clause_id", "text", "readability", "ambiguous"].Nodup)

/-- A clause is read from its canonical record. -/
theorem read_sorted {c : Clause} (hc : c.IsReadable) : read c.toJson.sorted = .ok c := by
  have hkeys := c.keys_fields
  have hid : Schema.required "clause_id" nonEmptyText (canonicalFields c.fields) = .ok c.id :=
    required_canonical hkeys rfl (by rw [sorted_str, nonEmptyText_str hc.id])
  have htext : optional "text" "" Schema.text (canonicalFields c.fields) = .ok c.text :=
    optional_canonical hkeys rfl (by rw [sorted_str, Schema.text])
  have hreadability : optional "readability" none (nullable (numberWithin 0 1))
      (canonicalFields c.fields) = .ok c.readability :=
    optional_canonical hkeys rfl (by rw [sorted_float?, nullable_float? hc.readability])
  have hambiguous : optional "ambiguous" false Schema.flag (canonicalFields c.fields) =
      .ok c.ambiguous :=
    optional_canonical hkeys rfl (by rw [sorted_bool, Schema.flag])
  have hjson : c.toJson = .obj c.fields := rfl
  rw [hjson, sorted_obj, read, record, hid, htext, hreadability, hambiguous]
  rfl

end Clause

namespace Document

/-- A document as reading leaves it: with the name of its policy, and clauses so left. -/
structure IsReadable (d : Document) : Prop where
  policy : d.policy ≠ ""
  clauses : ∀ c ∈ d.clauses, c.IsReadable

theorem isReadable_of_read {j : Json} {d : Document} (h : read j = .ok d) : d.IsReadable := by
  refine ⟨named_of_read h, fun c hc => ?_⟩
  obtain ⟨_, _, _, -, -, _, -, hread⟩ := exists_clause_of_read h hc
  exact Clause.isReadable_of_read hread

/-- The fields of the record of a document. -/
def fields (d : Document) : List (String × Json) := [
  ("policy_id", .str d.policy), ("title", .str d.title), ("entity_type", Json.str? d.entity),
  ("clauses", .arr (d.clauses.map Clause.toJson)), ("requires", Json.strs d.prerequisites),
  ("applies_to", Json.strs d.appliesTo)]

theorem keys_fields (d : Document) : (d.fields.map (·.1)).Nodup :=
  (by decide : ["policy_id", "title", "entity_type", "clauses", "requires", "applies_to"].Nodup)

/-- Texts are read from their list. -/
theorem sequence_strs (xs : List String) : sequence Schema.text (Json.strs xs) = .ok xs :=
  itemsFrom_texts xs 0

/-- A document is read from its canonical record. -/
theorem read_sorted {d : Document} (hd : d.IsReadable) : read d.toJson.sorted = .ok d := by
  have hkeys := d.keys_fields
  have hpolicy : Schema.required "policy_id" nonEmptyText (canonicalFields d.fields) =
      .ok d.policy :=
    required_canonical hkeys rfl (by rw [sorted_str, nonEmptyText_str hd.policy])
  have htitle : optional "title" "" Schema.text (canonicalFields d.fields) = .ok d.title :=
    optional_canonical hkeys rfl (by rw [sorted_str, Schema.text])
  have hentity : optional "entity_type" none (nullable Schema.text) (canonicalFields d.fields) =
      .ok d.entity :=
    optional_canonical hkeys rfl (by rw [sorted_str?, nullable_str?])
  have hclauses : optional "clauses" [] (sequence Clause.read) (canonicalFields d.fields) =
      .ok d.clauses := by
    refine optional_canonical hkeys rfl ?_
    rw [sorted_arr, List.map_map]
    exact sequence_map fun c hc => Clause.read_sorted (hd.clauses c hc)
  have hrequires : optional "requires" [] (sequence Schema.text) (canonicalFields d.fields) =
      .ok d.prerequisites :=
    optional_canonical hkeys rfl (by rw [sorted_strs, sequence_strs])
  have happlies : optional "applies_to" [] (sequence Schema.text) (canonicalFields d.fields) =
      .ok d.appliesTo :=
    optional_canonical hkeys rfl (by rw [sorted_strs, sequence_strs])
  have hjson : d.toJson = .obj d.fields := rfl
  rw [hjson, sorted_obj, read, record, hpolicy, htitle, hentity, hclauses, hrequires, happlies]
  rfl

end Document

end Eligibility
