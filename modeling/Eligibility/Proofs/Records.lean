import Eligibility.PolicyGraph.Compilation
import Eligibility.PolicyGraph.Record
import Eligibility.Proofs.Acceptance
import Eligibility.Proofs.JsonText
import Eligibility.Proofs.Parsing
/-!
# Records are read back

**Operands.**  The record of an operand tells its kind, and of all properties of a node it alone
has a reader: it is looked for under the name `value`, and anything but null there must be one.
A list of top-level rules has the same form before and after.

**Portable.**  A node, an edge or a graph is portable if nothing is lost in its record: its names
are texts, no property stands twice, and an operand stands nowhere but where it is looked for.

**Results.**
* `Operand.read_toJson`, `Node.read_toJson`, `Edge.read_toJson`, `PolicyGraph.read_toJson`: what is
  portable is read from its record.
* `PolicyGraph.isPortable_toJson`: the record itself is portable as JSON.
* `PolicyGraph.hasShortIntegers_toJson`: which integers a record holds.
-/

namespace Eligibility

section Records

theorem Entries.spelled_ofFields (fs : List (String × Json)) :
    (Entries.ofFields fs).spelled Name.key = fs := by
  simp [Entries.spelled, Entries.ofFields, Name.key, Function.comp_def]

theorem lookup_of_mem {α : Type} {fs : List (String × α)} (hfs : (fs.map (·.1)).Nodup)
    {k : String} {v : α} (h : (k, v) ∈ fs) : fs.lookup k = some v := by
  induction fs with
  | nil => cases h
  | cons f r ih =>
      rw [List.map_cons, List.nodup_cons] at hfs
      rcases List.mem_cons.mp h with rfl | h
      · simp
      · have hne : (k == f.1) = false := by
          rw [beq_eq_false_iff_ne]
          rintro rfl
          exact hfs.1 (List.mem_map.mpr ⟨_, h, rfl⟩)
        rw [List.lookup_cons, hne]
        exact ih hfs.2 h

theorem Schema.itemsFrom_texts (xs : List String) (n : Nat) :
    Schema.itemsFrom Schema.text n (xs.map .str) = .ok xs := by
  induction xs generalizing n with
  | nil => rfl
  | cons x r ih =>
      rw [List.map_cons, Schema.itemsFrom, ih]
      rfl

theorem Operand.readAs_bare (v : Operand) :
    readAs v.kind [("kind", .str v.kind.name), ("value", v.bare)] = .ok v := by
  cases v with
  | texts s =>
      simp [kind, readAs, Schema.required, Json.lookup, bare, Json.strs, Schema.listOr,
        Schema.itemsFrom_texts, TextSet.ofList_members]
  | _ => rfl

/-- An operand is read from its record. -/
theorem Operand.read_toJson (v : Operand) : Operand.read v.toJson = .ok v := by
  rw [Operand.toJson, Operand.read]
  simp [Json.lookup, ValueKind.ofName?_name, Operand.readAs_bare]

/-- A property that its record gives back: an operand stands under its own name, where nothing
else does but null. -/
def Property.IsPortable (k : String) : Property → Prop
  | .json j => j.IsPortable ∧ (k = "value" → j = .null)
  | .operand v => k = "value" ∧ v.bare.IsPortable

/-- A node that its record gives back. -/
structure Node.IsPortable (n : Node) : Prop where
  id : ∃ k, n.id = .str k
  properties : ∃ fs : List (String × Property), n.properties = .ofFields fs ∧
    (fs.map (·.1)).Nodup ∧ ∀ f ∈ fs, f.2.IsPortable f.1
  confidence : Rule.IsWritable n.confidence

/-- An edge that its record gives back. -/
structure Edge.IsPortable (e : Edge) : Prop where
  id : ∃ k, e.id = .str k
  source : ∃ k, e.source = .str k
  target : ∃ k, e.target = .str k
  label : ∃ l : Label, e.properties = .ofFields l.properties

/-- A graph that its record gives back. -/
structure PolicyGraph.IsPortable (g : PolicyGraph) : Prop where
  nodes : ∀ n ∈ g.nodes, n.IsPortable
  edges : ∀ e ∈ g.edges, e.IsPortable
  metadata : ∃ fs, g.metadata = .ofFields fs ∧ (Json.obj fs).IsPortable
  sound : PolicyGraph.fault? g.nodes g.edges = none

namespace Node

variable {fs : List (String × Property)}

/-- Where an operand stands among properties, it is read and they are kept. -/
theorem readProperties_operand {v : Operand} (hkeys : (fs.map (·.1)).Nodup)
    (hfs : ∀ f ∈ fs, f.2.IsPortable f.1) (hv : ("value", .operand v) ∈ fs) :
    readProperties (.ofFields (fs.map fun f => (f.1, f.2.toJson))) = .ok (.ofFields fs) := by
  have hlookup : (fs.map fun f => (f.1, f.2.toJson)).lookup "value" = some v.toJson :=
    lookup_of_mem (by simpa [Function.comp_def] using hkeys) (List.mem_map_of_mem hv)
  have hread := v.read_toJson
  rw [Operand.toJson] at hlookup hread
  simp only [readProperties, Entries.get?_ofFields, hlookup, hread]
  simp only [Entries.ofFields, List.map_map]
  refine congrArg Except.ok (List.map_congr_left fun f hf => ?_)
  have hportable := hfs f hf
  by_cases hk : f.1 = "value"
  · obtain rfl : f = ("value", .operand v) := List.inj_on_of_nodup_map hkeys hf hv hk
    simp
  · cases hp : f.2 with
    | json j => simp [hk, hp, Property.toJson]
    | operand w =>
        rw [hp] at hportable
        exact absurd hportable.1 hk

/-- Where none stands, nothing is read: what has its name is null. -/
theorem readProperties_json
    (hfs : ∀ f ∈ fs, ∃ j, f.2 = .json j ∧ (f.1 = "value" → j = .null)) :
    readProperties (.ofFields (fs.map fun f => (f.1, f.2.toJson))) = .ok (.ofFields fs) := by
  have hkept : (Entries.ofFields (fs.map fun f => (f.1, f.2.toJson))).mapValues .json =
      Entries.ofFields fs := by
    simp only [Entries.mapValues, Entries.ofFields, List.map_map]
    refine List.map_congr_left fun f hf => ?_
    obtain ⟨j, hj, -⟩ := hfs f hf
    simp [hj, Property.toJson]
  rw [readProperties, hkept, Entries.get?_ofFields]
  cases hlookup : (fs.map fun f => (f.1, f.2.toJson)).lookup "value" with
  | none => rfl
  | some j =>
      obtain ⟨f, hf, heq⟩ := List.mem_map.mp (mem_of_lookup hlookup)
      obtain ⟨i, hi, hnull⟩ := hfs f hf
      obtain ⟨hk, rfl⟩ := Prod.mk.inj heq
      rw [hi, hnull hk, Property.toJson]

/-- Properties are read from their record. -/
theorem readProperties_ofFields (hkeys : (fs.map (·.1)).Nodup)
    (hfs : ∀ f ∈ fs, f.2.IsPortable f.1) :
    readProperties (.ofFields (fs.map fun f => (f.1, f.2.toJson))) = .ok (.ofFields fs) := by
  by_cases h : ∃ v, ("value", Property.operand v) ∈ fs
  · obtain ⟨v, hv⟩ := h
    exact readProperties_operand hkeys hfs hv
  · refine readProperties_json fun f hf => ?_
    have hportable := hfs f hf
    cases hp : f.2 with
    | json j =>
        rw [hp] at hportable
        exact ⟨j, rfl, hportable.2⟩
    | operand v =>
        rw [hp] at hportable
        exact absurd ⟨v, hportable.1 ▸ hp ▸ hf⟩ h

theorem readKind_name (k : NodeKind) : readKind (.str k.name) = .ok k := by
  simp [readKind, NodeKind.ofName?_name]

theorem read_toJson {n : Node} (h : n.IsPortable) : read n.toJson = .ok n := by
  obtain ⟨⟨k, hk⟩, ⟨fs, hproperties, hkeys, hfs⟩, -⟩ := h
  have hread := readProperties_ofFields hkeys hfs
  obtain ⟨id, kind, properties, confidence⟩ := n
  subst hk hproperties
  rw [toJson, record, Entries.ofFields_map, Entries.spelled_ofFields, read]
  simp [Json.lookup, Payload.mapping, Payload.embed, Payload.field, Payload.number, Fault.mapping,
    Fault.number, hread, readKind_name, Except.bind]

end Node

namespace Edge

theorem readRelation_name (r : Relation) : readRelation (.str r.name) = .ok r := by
  simp [readRelation, Relation.ofName?_name]

theorem read_toJson {e : Edge} (h : e.IsPortable) : read e.toJson = .ok e := by
  obtain ⟨⟨k, hk⟩, ⟨s, hs⟩, ⟨t, ht⟩, ⟨l, hl⟩⟩ := h
  obtain ⟨id, source, target, relation, properties⟩ := e
  subst hk hs ht hl
  rw [toJson, record, Entries.spelled_ofFields, read]
  simp [Json.lookup, Payload.mapping, Payload.embed, Payload.field, Fault.mapping,
    readRelation_name, Except.bind]

end Edge

namespace PolicyGraph

theorem read_toJson {g : PolicyGraph} (h : g.IsPortable) : read g.toJson = .ok g := by
  obtain ⟨fs, hmetadata, -⟩ := h.metadata
  have hnodes : (g.nodes.map (Node.record Name.key)).mapM Node.read = .ok g.nodes := by
    rw [Attempt.mapM_eq_ok, List.forall₂_map_left_iff, List.forall₂_same]
    exact fun n hn => Node.read_toJson (h.nodes n hn)
  have hedges : (g.edges.map (Edge.record Name.key)).mapM Edge.read = .ok g.edges := by
    rw [Attempt.mapM_eq_ok, List.forall₂_map_left_iff, List.forall₂_same]
    exact fun e he => Edge.read_toJson (h.edges e he)
  have hmake : make g.nodes g.edges g.metadata = .ok g := by
    rw [make, h.sound]
    obtain ⟨nodes, edges, metadata, index, hindex⟩ := g
    subst hindex
    rfl
  have hfields : Fault.mappingOrEmpty (.obj fs) = .ok (.ofFields fs) := by
    cases fs <;> rfl
  rw [toJson, record, hmetadata, Entries.spelled_ofFields, read]
  rw [hmetadata] at hmake
  simp [Json.lookup, Payload.items, Json.elements?, hnodes, hedges, hfields, hmake, Except.bind]

end PolicyGraph

end Records

section Values

namespace Json

theorem isPortable_float {x : Number} (hx : Rule.IsWritable x) : (float x).IsPortable :=
  .float hx.finite hx.double

theorem isPortable_obj {fs : List (String × Json)} (hkeys : (fs.map (·.1)).Nodup)
    (hfs : fs.Forall fun f => f.2.IsPortable) : (obj fs).IsPortable :=
  .obj hkeys (List.forall_iff_forall_mem.mp hfs)

theorem isPortable_strs (xs : List String) : (strs xs).IsPortable := by
  refine .arr fun j hj => ?_
  obtain ⟨x, -, rfl⟩ := List.mem_map.mp hj
  exact .str x

theorem isPortable_str? (o : Option String) : (str? o).IsPortable := by
  cases o with
  | none => exact .null
  | some s => exact .str s

theorem isPortable_float? {o : Option Number} (h : ∀ x, o = some x → Rule.IsWritable x) :
    (float? o).IsPortable := by
  cases o with
  | none => exact .null
  | some x => exact isPortable_float (h x rfl)

end Json

theorem Operand.isPortable_bare {v : Operand} (h : ∀ x, v = .number x → Rule.IsWritable x) :
    v.bare.IsPortable := by
  cases v with
  | number x => exact Json.isPortable_float (h x rfl)
  | text s => exact .str s
  | flag b => exact .bool b
  | texts s => exact Json.isPortable_strs s.members

theorem Property.isPortable_toJson {k : String} {p : Property} (h : p.IsPortable k) :
    p.toJson.IsPortable := by
  cases p with
  | json j => exact h.1
  | operand v =>
      refine Json.isPortable_obj (by simp) ?_
      simp only [List.Forall]
      exact ⟨.str _, h.2⟩

theorem Label.isPortable_properties (l : Label) : (Json.obj l.properties).IsPortable := by
  cases l with
  | plain => exact .obj List.nodup_nil (List.forall_mem_nil _)
  | root position =>
      refine Json.isPortable_obj (by simp [properties]) ?_
      simp only [properties, List.Forall]
      exact ⟨.str _, .int _⟩
  | operand operator position =>
      refine Json.isPortable_obj (by simp [properties]) ?_
      simp only [properties, List.Forall]
      exact ⟨.str _, .int _, .bool _⟩
  | via clause =>
      refine Json.isPortable_obj (by simp [properties]) ?_
      simp only [properties, List.Forall]
      exact .str _

theorem Node.isPortable_toJson {n : Node} (h : n.IsPortable) : n.toJson.IsPortable := by
  obtain ⟨⟨k, hk⟩, ⟨fs, hproperties, hkeys, hfs⟩, hconfidence⟩ := h
  rw [toJson, record, hk, hproperties, Entries.ofFields_map, Entries.spelled_ofFields]
  refine Json.isPortable_obj (by simp) ?_
  simp only [List.Forall]
  have hrecords : (Json.obj (fs.map fun f => (f.1, f.2.toJson))).IsPortable := by
    refine .obj (by simpa [Function.comp_def] using hkeys) fun f hf => ?_
    obtain ⟨e, he, rfl⟩ := List.mem_map.mp hf
    exact Property.isPortable_toJson (hfs e he)
  exact ⟨.str _, .str _, hrecords, Json.isPortable_float hconfidence⟩

theorem Edge.isPortable_toJson {e : Edge} (h : e.IsPortable) : e.toJson.IsPortable := by
  obtain ⟨⟨k, hk⟩, ⟨s, hs⟩, ⟨t, ht⟩, ⟨l, hl⟩⟩ := h
  rw [toJson, record, hk, hs, ht, hl, Entries.spelled_ofFields]
  refine Json.isPortable_obj (by simp) ?_
  simp only [List.Forall]
  exact ⟨.str _, .str _, .str _, .str _, l.isPortable_properties⟩

theorem PolicyGraph.isPortable_toJson {g : PolicyGraph} (h : g.IsPortable) :
    g.toJson.IsPortable := by
  obtain ⟨fs, hmetadata, hfs⟩ := h.metadata
  rw [toJson, record, hmetadata, Entries.spelled_ofFields]
  refine Json.isPortable_obj (by simp) ?_
  simp only [List.Forall]
  refine ⟨.arr fun j hj => ?_, .arr fun j hj => ?_, hfs⟩
  · obtain ⟨n, hn, rfl⟩ := List.mem_map.mp hj
    exact Node.isPortable_toJson (h.nodes n hn)
  · obtain ⟨e, he, rfl⟩ := List.mem_map.mp hj
    exact Edge.isPortable_toJson (h.edges e he)

end Values

section Integers
open Number

namespace Json

theorem hasShortIntegers_of_integers {j : Json} (h : j.integers = []) : j.HasShortIntegers := by
  simp [HasShortIntegers, h]

theorem hasShortIntegers_nat {n : Nat} (h : n < 10 ^ digitLimit) : (nat n).HasShortIntegers := by
  simpa [HasShortIntegers, nat, integers] using h

theorem integers_strs (xs : List String) : (strs xs).integers = [] := by
  simp [strs, integers, integersOfItems_eq]

theorem integers_str? (o : Option String) : (str? o).integers = [] := by cases o <;> rfl

theorem integers_float? (o : Option Number) : (float? o).integers = [] := by cases o <;> rfl

end Json

theorem Operand.integers_toJson (v : Operand) : v.toJson.integers = [] := by
  cases v <;> simp [toJson, bare, Json.integers, Json.integersOfFields, Json.integers_strs]

/-- The record of a node holds the integers that its properties hold. -/
theorem Node.integers_toJson (k : String) (kind : NodeKind) (fs : List (String × Property))
    (x : Number) : (Node.mk (.str k) kind (.ofFields fs) x).toJson.integers =
      fs.flatMap fun f => f.2.toJson.integers := by
  rw [toJson, record, Entries.ofFields_map, Entries.spelled_ofFields]
  simp [Json.integers, Json.integersOfFields_eq, List.flatMap_map]

/-- The record of an edge holds the integers that its properties hold. -/
theorem Edge.integers_toJson {e : Edge} (h : e.IsPortable) :
    e.toJson.integers = Json.integersOfFields (e.properties.spelled Name.key) := by
  obtain ⟨⟨k, hk⟩, ⟨s, hs⟩, ⟨t, ht⟩, -⟩ := h
  simp [toJson, record, hk, hs, ht, Json.integers, Json.integersOfFields]

/-- The integers of a record are those of the nodes, of the edges and of the metadata. -/
theorem PolicyGraph.hasShortIntegers_toJson {g : PolicyGraph} {fs : List (String × Json)}
    (h : g.metadata = .ofFields fs) :
    g.toJson.HasShortIntegers ↔ (∀ n ∈ g.nodes, n.toJson.HasShortIntegers) ∧
      (∀ e ∈ g.edges, e.toJson.HasShortIntegers) ∧ (Json.obj fs).HasShortIntegers := by
  rw [toJson, record, h, Entries.spelled_ofFields, Json.hasShortIntegers_obj]
  simp [Json.hasShortIntegers_arr, Node.toJson, Edge.toJson]

end Integers

end Eligibility
