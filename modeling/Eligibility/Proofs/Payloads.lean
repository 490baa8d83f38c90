import Eligibility.PolicyGraph.Source
import Eligibility.Proofs.Building
import Eligibility.Proofs.Faults
import Eligibility.Proofs.WellFormedness
/-!
# Payloads that cannot be loaded

**Conversion.**  A payload that does not do is to be refused with a report of schema validation.
The reader of records converts missing keys, bad values and wrong types into such a report, but
neither a value without fields in place of a node nor a confidence beyond the range of floats;
and the faults of what comes after it, of the metadata and of the making of the graph, are not
converted at all.  Rule sets are refused with such a report by their validation.

**Use.**  `Escapes x f` says that an attempt ends in a fault which is not one of the schema.  It
goes through a bind to the first step that lets a fault through, and through a traversal to the
first item.

**Results.**
* `Node.escapes_read_iff`, `Edge.failsOnly_read`: what the readers of records let through.
* `PolicyGraph.escapes_make_iff`: what the making of a graph lets through.
* `RuleSet.failsOnly_compile`: rule sets are refused with a report of schema validation.
* `load_answers`: the payloads that are answered with a graph or with such a report are those
  without a value that is let through.
* `not_forall_load_answers`: a text in place of a node is let through.
-/

namespace Eligibility
open Attempt

/-- Whether a fault is reported as one of schema validation. -/
def Fault.IsOfSchema (f : Fault) : Prop :=
  ∃ r, f.report? = some r ∧ r.category = .schemaValidation

namespace Fault

theorem isOfSchema_malformedGraph (cause : PayloadFault) : (malformedGraph cause).IsOfSchema :=
  ⟨_, rfl, rfl⟩

theorem isOfSchema_duplicateNode (id : Name) : (duplicateNode id).IsOfSchema := ⟨_, rfl, rfl⟩

theorem isOfSchema_unknownEndpoint (edge node : Name) : (unknownEndpoint edge node).IsOfSchema :=
  ⟨_, rfl, rfl⟩

theorem isOfSchema_rules (cause : RuleFault) : (rules cause).IsOfSchema :=
  ⟨_, rfl, RuleSet.report_category cause⟩

theorem not_isOfSchema {f : Fault} (h : f.isReported = false) : ¬ f.IsOfSchema := by
  rintro ⟨r, hr, -⟩
  rw [← report?_isSome, hr] at h
  cases h

/-- Whether an attempt ends in a fault that is not one of the schema. -/
def Escapes {α : Type} (x : Except Fault α) (f : Fault) : Prop := x = .error f ∧ ¬ f.IsOfSchema

section Steps

variable {α β : Type} {x : Except Fault α} {f : Fault}

theorem not_escapes (h : FailsOnly IsOfSchema x) : ¬ Escapes x f := fun he => he.2 (h f he.1)

/-- A fault escapes from two steps through the first one or, behind it, through the second. -/
theorem escapes_bind_iff {k : α → Except Fault β} :
    Escapes (x >>= k) f ↔ Escapes x f ∨ ∃ a, x = .ok a ∧ Escapes (k a) f := by
  cases x with
  | error e => simp [Escapes]
  | ok a => simp [Escapes]

/-- Behind a step that lets nothing through, a fault escapes through the next one. -/
theorem escapes_bind_iff_of_failsOnly {k : α → Except Fault β} (h : FailsOnly IsOfSchema x) :
    Escapes (x >>= k) f ↔ ∃ a, x = .ok a ∧ Escapes (k a) f := by
  rw [escapes_bind_iff, or_iff_right (not_escapes h)]

end Steps

end Fault

open Fault

namespace Json

/-- Without the fields of one key, the other keys are looked up as before. -/
theorem lookup_filter_ne {k k' : String} (h : k ≠ k') (fs : List (String × Json)) :
    lookup k (fs.filter fun f => f.1 ≠ k') = lookup k fs := by
  induction fs with
  | nil => rfl
  | cons f fs ih =>
      by_cases hf : f.1 = k'
      · rw [List.filter_cons_of_neg (by simpa using hf), ih, lookup,
          if_neg (by rw [hf]; exact h.symm)]
      · rw [List.filter_cons_of_pos (by simpa using hf), lookup, lookup, ih]

theorem lookup_filter_self (k : String) (fs : List (String × Json)) :
    lookup k (fs.filter fun f => f.1 ≠ k) = none := by
  induction fs with
  | nil => rfl
  | cons f fs ih =>
      by_cases hf : f.1 = k
      · rw [List.filter_cons_of_neg (by simpa using hf), ih]
      · rw [List.filter_cons_of_pos (by simpa using hf), lookup, if_neg hf, ih]

end Json

namespace Payload

section Values

variable {α : Type}

theorem failsOnly_fail (cause : PayloadFault) :
    FailsOnly IsOfSchema (fail cause : Except Fault α) :=
  .error (isOfSchema_malformedGraph cause)

theorem failsOnly_field (k : String) (fs : List (String × Json)) :
    FailsOnly IsOfSchema (field k fs) := by
  unfold field
  split
  · exact .ok _
  · exact failsOnly_fail _

theorem failsOnly_items (j : Json) : FailsOnly IsOfSchema (items j) := by
  unfold items
  split
  · exact .ok _
  · exact failsOnly_fail _

/-- What is no mapping is a bad value or of a wrong type, and both are converted. -/
theorem failsOnly_mapping (j : Json) : FailsOnly IsOfSchema (mapping j) := by
  unfold mapping Fault.mapping
  split
  · exact .ok _
  · exact failsOnly_fail _
  · exact failsOnly_fail _

theorem failsOnly_number {j : Json} (hj : ∀ n, j = .int n → Number.ofInt? n ≠ none) :
    FailsOnly IsOfSchema (number j) := by
  unfold number Fault.number
  split
  · exact .ok _
  · exact .ok _
  · next n =>
      cases hn : Number.ofInt? n with
      | some x => exact .ok x
      | none => exact absurd hn (hj n rfl)
  · next s =>
      cases Number.readLoose? s.toList with
      | some x => exact .ok x
      | none => exact failsOnly_fail _
  · exact failsOnly_fail _

/-- What is no number is converted unless it is an integer beyond the range. -/
theorem escapes_number_iff {j : Json} {f : Fault} : Escapes (number j) f ↔
    f = .outOfRange ∧ ∃ n, j = .int n ∧ Number.ofInt? n = none := by
  by_cases hj : ∃ n, j = .int n ∧ Number.ofInt? n = none
  · obtain ⟨n, rfl, hn⟩ := hj
    have hnumber : number (.int n) = .error .outOfRange := by
      simp only [number, Fault.number, hn, embed]
    have hnot : ¬ Fault.outOfRange.IsOfSchema := not_isOfSchema rfl
    rw [Escapes, hnumber]
    constructor
    · rintro ⟨⟨⟩, -⟩
      exact ⟨rfl, n, rfl, hn⟩
    · rintro ⟨rfl, -⟩
      exact ⟨rfl, hnot⟩
  · push Not at hj
    exact iff_of_false (not_escapes (failsOnly_number hj)) fun h => by
      obtain ⟨-, n, hn, hrange⟩ := h
      exact hj n hn hrange

end Values

end Payload

namespace Node

/-- The records of nodes that are let through, with their faults. -/
inductive Unguarded : Json → Fault → Prop
  /-- A value without fields. -/
  | noRecord {j : Json} (h : ∀ fs, j ≠ .obj fs) : Unguarded j .noAttribute
  /-- A record that is a node but for its confidence, an integer beyond the range of floats. -/
  | confidence {fs : List (String × Json)} {n : Int} {node : Node}
      (hn : Json.lookup "confidence" fs = some (.int n)) (hrange : Number.ofInt? n = none)
      (hrest : read (.obj (fs.filter fun f => f.1 ≠ "confidence")) = .ok node) :
      Unguarded (.obj fs) .outOfRange

theorem failsOnly_readProperties (es : Entries Json) :
    FailsOnly IsOfSchema (readProperties es) := by
  unfold readProperties
  split
  · exact .ok _
  · exact .ok _
  · split
    · exact Payload.failsOnly_fail _
    · exact .ok _

theorem failsOnly_readKind (j : Json) : FailsOnly IsOfSchema (readKind j) := by
  unfold readKind
  cases j with
  | str s =>
      cases hs : NodeKind.ofName? s with
      | none => simpa [hs] using Payload.failsOnly_fail _
      | some k => simpa [hs] using FailsOnly.ok k
  | _ => exact Payload.failsOnly_fail _

/-- What the record of a node gives apart from the confidence: properties, identifier, kind. -/
structure IsHeaded (fs : List (String × Json)) (ps : Entries Json)
    (properties : Entries Property) (id : Name) (kind : NodeKind) : Prop where
  mapping : Payload.mapping ((Json.lookup "properties" fs).getD (.obj [])) = .ok ps
  properties : readProperties ps = .ok properties
  id : Payload.field "node_id" fs = .ok id
  kind : (Payload.field "node_type" fs).bind readKind = .ok kind

section Reading

variable {fs : List (String × Json)} {ps : Entries Json} {properties : Entries Property}
  {id : Name} {kind : NodeKind} {f : Fault}

/-- The confidence is the last thing that is read. -/
theorem IsHeaded.read_eq (h : IsHeaded fs ps properties id kind) : read (.obj fs) =
    Payload.number ((Json.lookup "confidence" fs).getD (.float Number.one)) >>=
      fun x => pure ⟨id, kind, properties, x⟩ := by
  rw [read, h.mapping, ok_bind, h.properties, ok_bind, h.id, ok_bind, h.kind, ok_bind]

theorem exists_isHeaded {node : Node} (h : read (.obj fs) = .ok node) :
    ∃ ps properties id kind, IsHeaded fs ps properties id kind := by
  obtain ⟨ps, hps, h⟩ := bind_eq_ok.mp h
  obtain ⟨properties, hproperties, h⟩ := bind_eq_ok.mp h
  obtain ⟨id, hid, h⟩ := bind_eq_ok.mp h
  obtain ⟨kind, hkind, -⟩ := bind_eq_ok.mp h
  exact ⟨ps, properties, id, kind, hps, hproperties, hid, hkind⟩

/-- The confidence is not looked at before. -/
theorem IsHeaded.congr {gs : List (String × Json)} (h : IsHeaded fs ps properties id kind)
    (hgs : ∀ k, k ≠ "confidence" → Json.lookup k gs = Json.lookup k fs) :
    IsHeaded gs ps properties id kind where
  mapping := by rw [hgs "properties" (by decide), h.mapping]
  properties := h.properties
  id := by rw [Payload.field, hgs "node_id" (by decide), ← Payload.field, h.id]
  kind := by rw [Payload.field, hgs "node_type" (by decide), ← Payload.field, h.kind]

theorem isHeaded_filter_iff :
    IsHeaded (fs.filter fun f => f.1 ≠ "confidence") ps properties id kind ↔
      IsHeaded fs ps properties id kind :=
  ⟨fun h => h.congr fun _ hk => (Json.lookup_filter_ne hk fs).symm,
    fun h => h.congr fun _ hk => Json.lookup_filter_ne hk fs⟩

/-- A fault escapes from the record of a node that is read up to its confidence. -/
theorem escapes_read_obj_iff : Escapes (read (.obj fs)) f ↔
    ∃ ps properties id kind, IsHeaded fs ps properties id kind ∧
      Escapes (Payload.number ((Json.lookup "confidence" fs).getD (.float Number.one))) f := by
  constructor
  · intro h
    obtain ⟨ps, hps, h⟩ := (escapes_bind_iff_of_failsOnly (Payload.failsOnly_mapping _)).mp h
    obtain ⟨properties, hproperties, h⟩ :=
      (escapes_bind_iff_of_failsOnly (failsOnly_readProperties _)).mp h
    obtain ⟨id, hid, h⟩ := (escapes_bind_iff_of_failsOnly (Payload.failsOnly_field _ _)).mp h
    have hreadKind : FailsOnly IsOfSchema ((Payload.field "node_type" fs).bind readKind) :=
      (Payload.failsOnly_field _ _).bind fun j _ => failsOnly_readKind j
    obtain ⟨kind, hkind, h⟩ := (escapes_bind_iff_of_failsOnly hreadKind).mp h
    refine ⟨ps, properties, id, kind, ⟨hps, hproperties, hid, hkind⟩, ?_⟩
    rcases escapes_bind_iff.mp h with h | ⟨x, -, h⟩
    · exact h
    · cases h.1
  · rintro ⟨ps, properties, id, kind, hhead, h⟩
    rw [hhead.read_eq]
    exact escapes_bind_iff.mpr (.inl h)

/-- The reader of nodes lets through what is unguarded. -/
theorem escapes_read_iff {j : Json} : Escapes (read j) f ↔ Unguarded j f := by
  by_cases hj : ∀ fs, j ≠ .obj fs
  · have hread : read j = .error .noAttribute := by
      cases j with
      | obj fs => exact absurd rfl (hj fs)
      | _ => rfl
    rw [Escapes, hread]
    constructor
    · rintro ⟨⟨⟩, -⟩
      exact .noRecord hj
    · rintro (- | -)
      · exact ⟨rfl, not_isOfSchema rfl⟩
      · exact absurd rfl (hj _)
  · push Not at hj
    obtain ⟨fs, rfl⟩ := hj
    rw [escapes_read_obj_iff]
    constructor
    · rintro ⟨ps, properties, id, kind, hhead, h⟩
      obtain ⟨rfl, n, hn, hrange⟩ := Payload.escapes_number_iff.mp h
      have hgiven : Json.lookup "confidence" fs = some (.int n) := by
        cases hlookup : Json.lookup "confidence" fs with
        | none => simp [hlookup] at hn
        | some j => simpa [hlookup] using hn
      have hrest : read (.obj (fs.filter fun f => f.1 ≠ "confidence")) =
          .ok ⟨id, kind, properties, Number.one⟩ := by
        rw [(isHeaded_filter_iff.mpr hhead).read_eq, Json.lookup_filter_self]
        rfl
      exact .confidence hgiven hrange hrest
    · rintro (hnot | ⟨hn, hrange, hrest⟩)
      · exact absurd rfl (hnot fs)
      · obtain ⟨ps, properties, id, kind, hhead⟩ := exists_isHeaded hrest
        refine ⟨ps, properties, id, kind, isHeaded_filter_iff.mp hhead, ?_⟩
        exact Payload.escapes_number_iff.mpr ⟨rfl, _, by rw [hn]; rfl, hrange⟩

end Reading

end Node

namespace Edge

theorem failsOnly_readRelation (j : Json) : FailsOnly IsOfSchema (readRelation j) := by
  unfold readRelation
  cases j with
  | str s =>
      cases hs : Relation.ofName? s with
      | none => simpa [hs] using Payload.failsOnly_fail _
      | some r => simpa [hs] using FailsOnly.ok r
  | _ => exact Payload.failsOnly_fail _

/-- The reader of edges lets nothing through. -/
theorem failsOnly_read (j : Json) : FailsOnly IsOfSchema (read j) := by
  cases j with
  | obj fs =>
      refine (Payload.failsOnly_field _ _).bind fun _ _ => (Payload.failsOnly_field _ _).bind
        fun _ _ => (Payload.failsOnly_field _ _).bind fun _ _ => .bind ?_ fun _ _ =>
          (Payload.failsOnly_mapping _).bind fun _ _ => .ok _
      exact (Payload.failsOnly_field _ _).bind fun r _ => failsOnly_readRelation r
  | _ => exact Payload.failsOnly_fail _

end Edge

namespace PolicyGraph

section Names

variable {ns : List Node} {es : List Edge} {seen : List Name} {f : Fault}

/-- Nodes and edges with a value in place of a name that is let through, with its fault. -/
inductive UnguardedNames (ns : List Node) (es : List Edge) : Fault → Prop
  /-- A list or an object in place of the identifier of a node. -/
  | node {pre post : List Node} {n : Node} (hns : ns = pre ++ n :: post) (hpre : AreDistinct pre)
      (hn : Name.isUsable n.id = false) : UnguardedNames ns es .wrongType
  /-- A list or an object in place of the start of an edge. -/
  | source {pre post : List Edge} {e : Edge} (hns : AreDistinct ns) (hes : es = pre ++ e :: post)
      (hpre : AreJoined ns pre) (he : Name.isUsable e.source = false) :
      UnguardedNames ns es .wrongType
  /-- A list or an object in place of the end of an edge. -/
  | target {pre post : List Edge} {e : Edge} (hns : AreDistinct ns) (hes : es = pre ++ e :: post)
      (hpre : AreJoined ns pre) (hsource : IsEnd ns e.source)
      (he : Name.isUsable e.target = false) : UnguardedNames ns es .wrongType
  /-- A list or an object in place of a variable or of a clause. -/
  | index {n : Node} (hns : AreDistinct ns) (hes : AreJoined ns es) (hmem : n ∈ ns)
      (hn : isIndexable n = false) : UnguardedNames ns es .wrongType
  /-- A node whose identifier is null. -/
  | null {n : Node} (hns : AreDistinct ns) (hes : AreJoined ns es)
      (hindex : ∀ n ∈ ns, isIndexable n = true) (hmem : n ∈ ns) (hn : n.id = .null) :
      UnguardedNames ns es (.badValue .noNode)
  /-- A list or an object in place of the identifier of an edge. -/
  | edge {e : Edge} (hns : AreDistinct ns) (hes : AreJoined ns es)
      (hindex : ∀ n ∈ ns, isIndexable n = true) (hnull : ∀ n ∈ ns, n.id ≠ .null) (hmem : e ∈ es)
      (he : Name.isUsable e.id = false) : UnguardedNames ns es .wrongType

/-- What the check of nodes lets through is the first name that is none. -/
theorem nodeFault?_escapes_iff : (nodeFault? seen ns = some f ∧ ¬ f.IsOfSchema) ↔
    f = .wrongType ∧ ∃ pre n post, ns = pre ++ n :: post ∧ nodeFault? seen pre = none ∧
      Name.isUsable n.id = false := by
  induction ns generalizing seen with
  | nil => simp [nodeFault?]
  | cons m r ih =>
      rw [nodeFault?]
      constructor
      · rintro ⟨h, hf⟩
        split_ifs at h with husable hamong
        · exact ⟨(Option.some.inj h).symm, [], m, r, rfl, rfl, by simpa using husable⟩
        · exact absurd (Option.some.inj h ▸ isOfSchema_duplicateNode _) hf
        · obtain ⟨hwrong, pre, n, post, rfl, hpre, hn⟩ := ih.mp ⟨h, hf⟩
          refine ⟨hwrong, m :: pre, n, post, rfl, ?_, hn⟩
          rw [nodeFault?, if_neg husable, if_neg hamong, hpre]
      · rintro ⟨rfl, _ | ⟨k, pre⟩, n, post, hns, hpre, hn⟩
        · obtain ⟨rfl, rfl⟩ := List.cons.inj hns
          exact ⟨by rw [if_pos (by simp [hn])], not_isOfSchema rfl⟩
        · obtain ⟨rfl, rfl⟩ := List.cons.inj hns
          rw [nodeFault?] at hpre
          split_ifs at hpre with husable hamong
          rw [if_neg husable, if_neg hamong]
          exact ih.mpr ⟨rfl, pre, n, post, rfl, hpre, hn⟩

theorem endpointFault?_escapes_iff {e : Edge} {n : Name} :
    (endpointFault? (ns.map Node.id) e n = some f ∧ ¬ f.IsOfSchema) ↔
      f = .wrongType ∧ Name.isUsable n = false := by
  unfold endpointFault?
  constructor
  · rintro ⟨h, hf⟩
    split_ifs at h with husable hamong
    · exact ⟨(Option.some.inj h).symm, by simpa using husable⟩
    · exact absurd (Option.some.inj h ▸ isOfSchema_unknownEndpoint _ _) hf
  · rintro ⟨rfl, husable⟩
    exact ⟨by rw [if_pos (by simp [husable])], not_isOfSchema rfl⟩

/-- What the check of edges lets through is the first end that is no name. -/
theorem edgeFault?_escapes_iff : (edgeFault? (ns.map Node.id) es = some f ∧ ¬ f.IsOfSchema) ↔
    f = .wrongType ∧ ∃ pre e post, es = pre ++ e :: post ∧ AreJoined ns pre ∧
      (Name.isUsable e.source = false ∨ IsEnd ns e.source ∧ Name.isUsable e.target = false) := by
  simp only [edgeFault?, List.findSome?_eq_some_iff, Option.or_eq_some_iff, Option.or_eq_none_iff,
    endpointFault?_eq_none_iff]
  constructor
  · rintro ⟨⟨pre, e, post, rfl, h | ⟨hsource, h⟩, hpre⟩, hf⟩
    · obtain ⟨hwrong, he⟩ := endpointFault?_escapes_iff.mp ⟨h, hf⟩
      exact ⟨hwrong, pre, e, post, rfl, hpre, .inl he⟩
    · obtain ⟨hwrong, he⟩ := endpointFault?_escapes_iff.mp ⟨h, hf⟩
      exact ⟨hwrong, pre, e, post, rfl, hpre, .inr ⟨hsource, he⟩⟩
  · rintro ⟨rfl, pre, e, post, rfl, hpre, he⟩
    refine ⟨⟨pre, e, post, rfl, he.imp ?_ ?_, hpre⟩, not_isOfSchema rfl⟩
    · exact fun h => (endpointFault?_escapes_iff.mpr ⟨rfl, h⟩).1
    · exact fun h => ⟨h.1, (endpointFault?_escapes_iff.mpr ⟨rfl, h.2⟩).1⟩

theorem UnguardedNames.not_isOfSchema (h : UnguardedNames ns es f) : ¬ f.IsOfSchema := by
  cases h <;> exact Fault.not_isOfSchema rfl

/-- The checks end in the fault of the first value that is let through. -/
theorem UnguardedNames.fault?_eq (h : UnguardedNames ns es f) : fault? ns es = some f := by
  have hedge : AreDistinct ns → edgeFault? (ns.map Node.id) es = some f →
      fault? ns es = some f := by
    intro hns hes
    rw [fault?, nodeFault?_nil_eq_none_iff.mpr hns, hes]
    rfl
  cases h with
  | node hsplit hpre hn =>
      have hnode := nodeFault?_escapes_iff.mpr
        ⟨rfl, _, _, _, hsplit, nodeFault?_nil_eq_none_iff.mpr hpre, hn⟩
      rw [fault?, hnode.1]
      rfl
  | source hns hsplit hpre he =>
      exact hedge hns (edgeFault?_escapes_iff.mpr ⟨rfl, _, _, _, hsplit, hpre, .inl he⟩).1
  | target hns hsplit hpre hsource he =>
      exact hedge hns
        (edgeFault?_escapes_iff.mpr ⟨rfl, _, _, _, hsplit, hpre, .inr ⟨hsource, he⟩⟩).1
  | index hns hes hmem hn =>
      rw [fault?, nodeFault?_nil_eq_none_iff.mpr hns, edgeFault?_eq_none_iff.mpr hes,
        if_pos (by simpa using ⟨_, hmem, hn⟩)]
      rfl
  | null hns hes hindex hmem hn =>
      rw [fault?, nodeFault?_nil_eq_none_iff.mpr hns, edgeFault?_eq_none_iff.mpr hes,
        if_neg (by simpa using hindex),
        if_pos (List.any_eq_true.mpr ⟨_, hmem, isNull_iff.mpr hn⟩)]
      rfl
  | edge hns hes hindex hnull hmem he =>
      rw [fault?, nodeFault?_nil_eq_none_iff.mpr hns, edgeFault?_eq_none_iff.mpr hes,
        if_neg (by simpa using hindex), if_neg (by simpa [isNull_iff] using hnull),
        if_pos (by simpa using ⟨_, hmem, he⟩)]
      rfl

/-- A fault of the checks that is none of the schema is that of a value which is let through. -/
theorem unguardedNames_of_fault? (h : fault? ns es = some f) (hf : ¬ f.IsOfSchema) :
    UnguardedNames ns es f := by
  rw [fault?, Option.or_eq_some_iff, Option.or_eq_some_iff, Option.or_eq_none_iff,
    nodeFault?_nil_eq_none_iff, edgeFault?_eq_none_iff] at h
  rcases h with (hnode | ⟨hns, hedge⟩) | ⟨⟨hns, hes⟩, hrest⟩
  · obtain ⟨rfl, pre, n, post, hsplit, hpre, hn⟩ := nodeFault?_escapes_iff.mp ⟨hnode, hf⟩
    exact .node hsplit (nodeFault?_nil_eq_none_iff.mp hpre) hn
  · obtain ⟨rfl, pre, e, post, hsplit, hpre, he | ⟨hsource, he⟩⟩ :=
      edgeFault?_escapes_iff.mp ⟨hedge, hf⟩
    · exact .source hns hsplit hpre he
    · exact .target hns hsplit hpre hsource he
  · split_ifs at hrest with hindex hnull hid
    · obtain rfl := Option.some.inj hrest
      obtain ⟨n, hn, hbad⟩ : ∃ n ∈ ns, isIndexable n = false := by simpa using hindex
      exact .index hns hes hn hbad
    · obtain rfl := Option.some.inj hrest
      obtain ⟨n, hn, hbad⟩ := List.any_eq_true.mp hnull
      exact .null hns hes (by simpa using hindex) hn (isNull_iff.mp hbad)
    · obtain rfl := Option.some.inj hrest
      obtain ⟨e, he, hbad⟩ : ∃ e ∈ es, Name.isUsable e.id = false := by simpa using hid
      refine .edge hns hes (by simpa using hindex) (fun n hn hid => hnull ?_) he hbad
      exact List.any_eq_true.mpr ⟨n, hn, isNull_iff.mpr hid⟩

/-- The making of a graph lets through what is unguarded. -/
theorem escapes_make_iff {metadata : Entries Json} :
    Escapes (make ns es metadata) f ↔ UnguardedNames ns es f := by
  have hmake : make ns es metadata = .error f ↔ fault? ns es = some f := by
    unfold make
    cases fault? ns es <;> simp
  rw [Escapes, hmake]
  exact ⟨fun h => unguardedNames_of_fault? h.1 h.2, fun h => ⟨h.fault?_eq, h.not_isOfSchema⟩⟩

end Names

end PolicyGraph

namespace Payload

/-- Whether a key is there and its value is gone through as items that are read as given. -/
def Lists {α : Type} (k : String) (fs : List (String × Json)) (reader : Json → Except Fault α)
    (as : List α) : Prop :=
  ∃ j xs, Json.lookup k fs = some j ∧ j.elements? = some xs ∧
    List.Forall₂ (fun x a => reader x = .ok a) xs as

/-- The payloads that are let through, with their faults: each has both keys of a graph. -/
inductive Unguarded (fs : List (String × Json)) : Fault → Prop
  /-- The first item of the nodes that is not read is let through. -/
  | node {js j : Json} {pre post : List Json} {f : Fault}
      (hnodes : Json.lookup "nodes" fs = some js) (hedges : (Json.lookup "edges" fs).isSome)
      (hitems : js.elements? = some (pre ++ j :: post))
      (hpre : ∀ i ∈ pre, ∃ n, Node.read i = .ok n) (hj : Node.Unguarded j f) : Unguarded fs f
  /-- Nodes and edges are read, and the metadata is neither empty nor a mapping. -/
  | metadata {ns : List Node} {es : List Edge} {j : Json} {f : Fault}
      (hnodes : Lists "nodes" fs Node.read ns) (hedges : Lists "edges" fs Edge.read es)
      (hj : Json.lookup "metadata" fs = some j) (htruthy : j.truthy = true)
      (hmapping : Fault.mapping j = .error f) : Unguarded fs f
  /-- All is read, and a value in place of a name is let through. -/
  | names {ns : List Node} {es : List Edge} {metadata : Entries Json} {f : Fault}
      (hnodes : Lists "nodes" fs Node.read ns) (hedges : Lists "edges" fs Edge.read es)
      (hmetadata : Fault.mappingOrEmpty ((Json.lookup "metadata" fs).getD (.obj [])) = .ok metadata)
      (hnames : PolicyGraph.UnguardedNames ns es f) : Unguarded fs f

section Lists

variable {α : Type} {k : String} {fs : List (String × Json)} {j : Json}
  {reader : Json → Except Fault α} {f : Fault}

/-- A list is read where all its items are. -/
theorem lists_iff (hj : Json.lookup k fs = some j) {as : List α} :
    (items j).bind (·.mapM reader) = .ok as ↔ Lists k fs reader as := by
  unfold Lists items
  simp only [hj, Option.some.injEq, exists_and_left, exists_eq_left']
  cases j.elements? with
  | none => simp [fail, Except.bind]
  | some xs => simp [Except.bind, mapM_eq_ok]

/-- A fault escapes from a list through the first item that is not read. -/
theorem escapes_items_iff : Escapes ((items j).bind (·.mapM reader)) f ↔
    ∃ pre x post, j.elements? = some (pre ++ x :: post) ∧ (∀ i ∈ pre, ∃ a, reader i = .ok a) ∧
      Escapes (reader x) f := by
  refine (escapes_bind_iff_of_failsOnly (failsOnly_items j)).trans ?_
  have hitems : ∀ xs, items j = .ok xs ↔ j.elements? = some xs := by
    intro xs
    unfold items
    cases j.elements? <;> simp [fail]
  simp only [hitems, Escapes, mapM_eq_error]
  constructor
  · rintro ⟨_, hxs, ⟨pre, x, post, rfl, hpre, hx⟩, hf⟩
    exact ⟨pre, x, post, hxs, hpre, hx, hf⟩
  · rintro ⟨pre, x, post, hxs, hpre, hx, hf⟩
    exact ⟨_, hxs, ⟨pre, x, post, rfl, hpre, hx⟩, hf⟩

/-- Edges are read or refused with a report of schema validation. -/
theorem failsOnly_readEdges (j : Json) :
    FailsOnly IsOfSchema ((items j).bind (·.mapM Edge.read)) :=
  (failsOnly_items j).bind fun _ _ => .mapM fun x _ => Edge.failsOnly_read x

theorem not_isOfSchema_of_mapping (h : Fault.mapping j = .error f) : ¬ f.IsOfSchema := by
  unfold Fault.mapping at h
  split at h <;> cases h <;> exact not_isOfSchema rfl

/-- Metadata that is neither empty nor a mapping is let through. -/
theorem escapes_metadata_iff :
    Escapes (Fault.mappingOrEmpty ((Json.lookup k fs).getD (.obj []))) f ↔
      ∃ j, Json.lookup k fs = some j ∧ j.truthy = true ∧ Fault.mapping j = .error f := by
  cases Json.lookup k fs with
  | none => simp [Escapes, Fault.mappingOrEmpty, Json.truthy]
  | some j =>
      simp only [Option.getD_some, Option.some.injEq, exists_eq_left', Escapes,
        Fault.mappingOrEmpty]
      split_ifs with ht
      · exact ⟨fun h => ⟨ht, h.1⟩, fun h => ⟨h.2, not_isOfSchema_of_mapping h.2⟩⟩
      · exact iff_of_false (fun h => by cases h.1) fun h => ht h.1

theorem Lists.isSome {as : List α} (h : Lists k fs reader as) : (Json.lookup k fs).isSome := by
  obtain ⟨j, xs, hj, -⟩ := h
  rw [hj]
  rfl

/-- A payload that is let through has both keys of a graph. -/
theorem Unguarded.isSome (h : Unguarded fs f) :
    (Json.lookup "nodes" fs).isSome ∧ (Json.lookup "edges" fs).isSome := by
  cases h with
  | node hnodes hedges => exact ⟨by rw [hnodes]; rfl, hedges⟩
  | metadata hnodes hedges => exact ⟨hnodes.isSome, hedges.isSome⟩
  | names hnodes hedges => exact ⟨hnodes.isSome, hedges.isSome⟩

end Lists

end Payload

/-- A rule set is compiled or refused with a report of schema validation. -/
theorem RuleSet.failsOnly_compile (cfg : Settings) (payload : Json) :
    FailsOnly IsOfSchema (compile cfg payload).outcome := by
  unfold compile accept
  cases hparse : parse cfg payload with
  | error f => exact .error (isOfSchema_rules f)
  | ok s =>
      obtain ⟨p, g, -, hbuild, -⟩ := exists_build_of_validate (parse_eq_ok.mp hparse).2
      rw [Logged.outcome_bind_ok rfl, hbuild]
      exact .ok g

namespace PolicyGraph

variable {fs : List (String × Json)} {f : Fault}

/-- The reader of graphs lets through what is unguarded. -/
theorem escapes_read_iff (hnodes : (Json.lookup "nodes" fs).isSome)
    (hedges : (Json.lookup "edges" fs).isSome) :
    Escapes (read (.obj fs)) f ↔ Payload.Unguarded fs f := by
  obtain ⟨js, hjs⟩ := Option.isSome_iff_exists.mp hnodes
  obtain ⟨ks, hks⟩ := Option.isSome_iff_exists.mp hedges
  rw [read, hjs, hks, Option.getD_some, Option.getD_some, escapes_bind_iff]
  simp only [escapes_bind_iff_of_failsOnly (Payload.failsOnly_readEdges ks), escapes_bind_iff,
    Payload.lists_iff hjs, Payload.lists_iff hks, Payload.escapes_items_iff,
    Payload.escapes_metadata_iff, escapes_make_iff, Node.escapes_read_iff]
  constructor
  · rintro (⟨pre, j, post, hitems, hpre, hj⟩ | ⟨ns, hns, es, hes, ⟨j, hj, ht, hm⟩ | ⟨m, hm, h⟩⟩)
    · exact .node hjs hedges hitems hpre hj
    · exact .metadata hns hes hj ht hm
    · exact .names hns hes hm h
  · rintro (⟨hnodes, -, hitems, hpre, hj⟩ | ⟨hns, hes, hj, ht, hm⟩ | ⟨hns, hes, hm, h⟩)
    · obtain rfl := Option.some.inj (hjs.symm.trans hnodes)
      exact .inl ⟨_, _, _, hitems, hpre, hj⟩
    · exact .inr ⟨_, hns, _, hes, .inl ⟨_, hj, ht, hm⟩⟩
    · exact .inr ⟨_, hns, _, hes, .inr ⟨_, hm, h⟩⟩

/-- What the loading of a payload lets through is what is unguarded. -/
theorem escapes_load_iff (cfg : Settings) :
    Escapes (load cfg (.obj fs)).outcome f ↔ Payload.Unguarded fs f := by
  unfold load isRecord
  by_cases hkeys : (Json.lookup "nodes" fs).isSome ∧ (Json.lookup "edges" fs).isSome
  · simp only [hkeys.1, hkeys.2, Bool.and_true]
    exact escapes_read_iff hkeys.1 hkeys.2
  · have hfalse : ((Json.lookup "nodes" fs).isSome && (Json.lookup "edges" fs).isSome) = false := by
      simpa using hkeys
    simp only [hfalse]
    exact iff_of_false (not_escapes (RuleSet.failsOnly_compile cfg _)) fun h => hkeys h.isSome

/-- A payload is answered with a graph or with a report of schema validation, except for those with
a value that is let through, which end in its fault. -/
theorem load_answers (cfg : Settings) (fs : List (String × Json)) :
    (((∃ g, (load cfg (.obj fs)).outcome = .ok g) ∨
        ∃ f, (load cfg (.obj fs)).outcome = .error f ∧ f.IsOfSchema) ↔
      ∀ f, ¬ Payload.Unguarded fs f) ∧
    ∀ f, Payload.Unguarded fs f ↔ (load cfg (.obj fs)).outcome = .error f ∧ ¬ f.IsOfSchema := by
  refine ⟨?_, fun f => (escapes_load_iff cfg).symm⟩
  simp only [← escapes_load_iff cfg, Escapes]
  cases (load cfg (.obj fs)).outcome with
  | ok g => simp
  | error f => simp

/-- Not every payload is answered so: a text in place of a node is let through. -/
theorem not_forall_load_answers : ¬ ∀ (cfg : Settings) (fs : List (String × Json)),
    (∃ g, (load cfg (.obj fs)).outcome = .ok g) ∨
      ∃ f, (load cfg (.obj fs)).outcome = .error f ∧ f.IsOfSchema := by
  intro hall
  have hout : (load .standard (.obj [("nodes", .arr [.str "x"]), ("edges", .arr [])])).outcome =
      .error .noAttribute := rfl
  rcases hall .standard [("nodes", .arr [.str "x"]), ("edges", .arr [])] with ⟨g, hg⟩ | ⟨f, hf, hs⟩
  · cases hout.symm.trans hg
  · obtain rfl := Except.error.inj (hout.symm.trans hf)
    exact not_isOfSchema rfl hs

end PolicyGraph
end Eligibility
