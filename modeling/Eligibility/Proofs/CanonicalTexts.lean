import Eligibility.Proofs.SortedRecords
/-!
# Canonical texts of rule sets

**Texts.**  The canonical text of a rule set is what its fingerprint is made from.  It holds
all of the content: the rule set is read back from it, with the declared domains in the order of
their variables, which is no part of the content.

**Fingerprints.**  Two rule sets with one canonical text have the same content.  Their
fingerprints tell them apart as far as the digest tells the texts apart.

**Results.**
* `read_sorted`: a rule set is read from its canonical record.
* `isPortable_toJson`, `integers_toJson`: what its record holds.
* `sorted_toJson_eq_iff`: canonical records of the same content.
* `canonicalText_faithful`: canonical texts are read back, and texts and fingerprints identify
  the content.
-/

namespace Eligibility
open Schema Json

section Values

theorem Operand.isPortable_toJson {v : Operand} (h : ∀ x, v = .number x → Rule.IsWritable x) :
    v.toJson.IsPortable :=
  isPortable_obj (by decide : ["kind", "value"].Nodup) (by simpa using ⟨.str _, isPortable_bare h⟩)

theorem Rule.isPortable_elim {o : Option Operand}
    (h : ∀ x, o = some (.number x) → Rule.IsWritable x) :
    (o.elim .null Operand.toJson).IsPortable := by
  cases o with
  | none => exact .null
  | some v => exact Operand.isPortable_toJson fun x hx => h x (congrArg some hx)

theorem isPortable_arr {α : Type} {write : α → Json} {xs : List α}
    (h : ∀ x ∈ xs, (write x).IsPortable) : (Json.arr (xs.map write)).IsPortable := by
  refine .arr fun j hj => ?_
  obtain ⟨x, hx, rfl⟩ := List.mem_map.mp hj
  exact h x hx

theorem integersOfItems_map {α : Type} {write : α → Json} {xs : List α}
    (h : ∀ x ∈ xs, (write x).integers = []) : integersOfItems (xs.map write) = [] := by
  rw [integersOfItems_eq, List.flatMap_eq_nil_iff]
  intro j hj
  obtain ⟨x, hx, rfl⟩ := List.mem_map.mp hj
  exact h x hx

/-- The record of a rule whose numbers are finite doubles is given back by its text. -/
theorem Rule.isPortable_toJson : ∀ r : Rule,
    (∀ t ∈ r.walk, ∀ x ∈ t.head.numbers, Rule.IsWritable x) → r.toJson.IsPortable
  | .node h cs, hr => by
      have hchildren : (Json.arr (cs.map toJson)).IsPortable := by
        refine isPortable_arr fun c hc => isPortable_toJson c fun t ht => hr t ?_
        rw [walk]
        exact List.mem_cons_of_mem _ (mem_walkAll.mpr ⟨c, hc, ht⟩)
      have hnumbers := hr _ (mem_walk_self _)
      rw [toJson_node]
      exact isPortable_obj (keys_fields h cs) ⟨.str _, .str _, .str _,
        isPortable_elim fun x hx => hnumbers x (Head.mem_numbers_value hx), .str _,
        isPortable_float? fun x hx => hnumbers x (Head.mem_numbers_confidence hx),
        isPortable_str? _, hchildren⟩

theorem Rule.integers_toJson (r : Rule) : r.toJson.integers = [] := by
  induction r using Rule.induction with
  | node h cs ih =>
      have hchildren : integersOfItems (cs.map toJson) = [] := integersOfItems_map ih
      have hvalue : (h.value.elim .null Operand.toJson).integers = [] := by
        cases h.value with
        | none => rfl
        | some v => exact Operand.integers_toJson v
      rw [toJson_node, integers, integersOfFields_eq, fields]
      simp [hchildren, hvalue, integers, integers_float?, integers_str?]

theorem Clause.isPortable_toJson {c : Clause}
    (h : ∀ x, c.readability = some x → Rule.IsWritable x) : c.toJson.IsPortable :=
  isPortable_obj c.keys_fields ⟨.str _, .str _, isPortable_float? h, .bool _⟩

theorem Clause.integers_toJson (c : Clause) : c.toJson.integers = [] := by
  simp [toJson, integers, integersOfFields_eq, integers_float?]

theorem Document.isPortable_toJson {d : Document}
    (h : ∀ c ∈ d.clauses, ∀ x, c.readability = some x → Rule.IsWritable x) :
    d.toJson.IsPortable :=
  isPortable_obj d.keys_fields ⟨.str _, .str _, isPortable_str? _,
    isPortable_arr fun c hc => Clause.isPortable_toJson (h c hc), isPortable_strs _,
    isPortable_strs _⟩

theorem Document.integers_toJson (d : Document) : d.toJson.integers = [] := by
  have hclauses : integersOfItems (d.clauses.map Clause.toJson) = [] :=
    integersOfItems_map fun c _ => c.integers_toJson
  simp [toJson, integers, integersOfFields_eq, integers_str?, integers_strs, hclauses]

end Values

namespace RuleSet

/-- A rule set as reading leaves it: with trimmed rules of limited depth, documents so left, and
each variable declared once. -/
structure IsReadable (s : RuleSet) : Prop where
  heads : ∀ r ∈ Rule.walkAll s.rules, r.head.IsTrimmed
  depth : ∀ r ∈ s.rules, r.depth ≤ Rule.levelLimit
  documents : ∀ d ∈ s.documents, d.IsReadable
  domains : (s.domains.map (·.1)).Nodup

/-- The declared domains in the order of their variables. -/
def sortedDomains (s : RuleSet) : List (String × ValueKind) :=
  s.domains.mergeSort fun a b => decide (a.1 ≤ b.1)

section Records

variable {s t : RuleSet}

/-- The fields of the record of a rule set. -/
def fields (s : RuleSet) : List (String × Json) := [
  ("schema_version", .str s.version), ("rules", .arr (s.rules.map Rule.toJson)),
  ("documents", .arr (s.documents.map Document.toJson)),
  ("variable_domains", .obj (s.domains.map fun d => (d.1, .str d.2.name)))]

theorem toJson_eq (s : RuleSet) : s.toJson = .obj s.fields := by
  rw [toJson, Rule.toJsonAll_eq_map, fields]

theorem keys_fields (s : RuleSet) : (s.fields.map (·.1)).Nodup :=
  (by decide : ["schema_version", "rules", "documents", "variable_domains"].Nodup)

theorem canonicalFields_domains (ds : List (String × ValueKind)) :
    canonicalFields (ds.map fun d => (d.1, Json.str d.2.name)) =
      (ds.mergeSort fun a b => decide (a.1 ≤ b.1)).map fun d => (d.1, .str d.2.name) := by
  rw [canonicalFields, sortedFields_eq_map, List.map_map, sortFields]
  simp only [Function.comp_def, sorted_str]
  have hmap := List.map_mergeSort (r := fun a b => decide (a.1 ≤ b.1))
    (s := fun a b : String × Json => decide (a.1 ≤ b.1))
    (f := fun d : String × ValueKind => (d.1, Json.str d.2.name)) (l := ds) fun a _ b _ => rfl
  exact hmap.symm

theorem entries_domains (ds : List (String × ValueKind)) :
    entries (choice ValueKind.all ValueKind.name) (ds.map fun d => (d.1, Json.str d.2.name)) =
      .ok ds := by
  induction ds with
  | nil => rfl
  | cons d r ih =>
      rw [List.map_cons, entries, choice_kind, ih]
      rfl

/-- A rule set is read from its canonical record, with its domains in order. -/
theorem read_sorted (hs : s.IsReadable) :
    read s.toJson.sorted = .ok { s with domains := s.sortedDomains } := by
  have hkeys := s.keys_fields
  have hversion : optional "schema_version" "1.0" Schema.text (canonicalFields s.fields) =
      .ok s.version :=
    optional_canonical hkeys rfl (by rw [sorted_str, Schema.text])
  have hrules : optional "rules" [] (sequence Rule.read) (canonicalFields s.fields) =
      .ok s.rules := by
    refine optional_canonical hkeys rfl ?_
    rw [sorted_arr, List.map_map]
    exact sequence_map fun r hr => Rule.readTo_sorted r
      (fun t ht => hs.heads t (Rule.mem_walkAll.mpr ⟨r, hr, ht⟩)) (hs.depth r hr)
  have hdocuments : optional "documents" [] (sequence Document.read) (canonicalFields s.fields) =
      .ok s.documents := by
    refine optional_canonical hkeys rfl ?_
    rw [sorted_arr, List.map_map]
    exact sequence_map fun d hd => Document.read_sorted (hs.documents d hd)
  have hdomains : optional "variable_domains" []
      (Schema.mapping (choice ValueKind.all ValueKind.name)) (canonicalFields s.fields) =
        .ok s.sortedDomains := by
    refine optional_canonical hkeys rfl ?_
    rw [sorted_obj, canonicalFields_domains, Schema.mapping, entries_domains, sortedDomains]
  rw [toJson_eq, sorted_obj, read, record, hversion, hrules, hdocuments, hdomains]
  rfl

/-- The record of a rule set of finite doubles is given back by its text. -/
theorem isPortable_toJson (hdomains : (s.domains.map (·.1)).Nodup)
    (hrules : ∀ r ∈ Rule.walkAll s.rules, ∀ x ∈ r.head.numbers, Rule.IsWritable x)
    (hclauses : ∀ d ∈ s.documents, ∀ c ∈ d.clauses, ∀ x, c.readability = some x →
      Rule.IsWritable x) : s.toJson.IsPortable := by
  have hrecords : (Json.arr (s.rules.map Rule.toJson)).IsPortable :=
    isPortable_arr fun r hr => Rule.isPortable_toJson r fun t ht =>
      hrules t (Rule.mem_walkAll.mpr ⟨r, hr, ht⟩)
  have hkinds : (Json.obj (s.domains.map fun d => (d.1, Json.str d.2.name))).IsPortable := by
    refine .obj (by simpa [Function.comp_def] using hdomains) fun f hf => ?_
    obtain ⟨d, -, rfl⟩ := List.mem_map.mp hf
    exact .str _
  rw [toJson_eq]
  exact isPortable_obj s.keys_fields ⟨.str _, hrecords,
    isPortable_arr fun d hd => Document.isPortable_toJson (hclauses d hd), hkinds⟩

theorem integers_toJson (s : RuleSet) : s.toJson.integers = [] := by
  have hrules : integersOfItems (s.rules.map Rule.toJson) = [] :=
    integersOfItems_map fun r _ => r.integers_toJson
  have hdocuments : integersOfItems (s.documents.map Document.toJson) = [] :=
    integersOfItems_map fun d _ => d.integers_toJson
  have hdomains : integersOfFields (s.domains.map fun d => (d.1, Json.str d.2.name)) = [] := by
    rw [integersOfFields_eq, List.flatMap_eq_nil_iff]
    intro f hf
    obtain ⟨d, -, rfl⟩ := List.mem_map.mp hf
    rfl
  rw [toJson_eq, integers, integersOfFields_eq, fields]
  simp [hrules, hdocuments, hdomains, integers]

end Records

section Content

variable {s t : RuleSet}

/-- Whether two rule sets have the same version, rules and documents, and declare the same domains
in whatever order. -/
structure IsSameContent (s t : RuleSet) : Prop where
  version : s.version = t.version
  rules : s.rules = t.rules
  documents : s.documents = t.documents
  domains : s.domains.Perm t.domains

theorem sortedDomains_perm (s : RuleSet) : s.sortedDomains.Perm s.domains := List.mergeSort_perm _ _

theorem sortedDomains_pairwise (s : RuleSet) : s.sortedDomains.Pairwise fun a b => a.1 ≤ b.1 := by
  have htrans : ∀ a b c : String × ValueKind, decide (a.1 ≤ b.1) = true →
      decide (b.1 ≤ c.1) = true → decide (a.1 ≤ c.1) = true :=
    fun _ _ _ hab hbc => by simpa using String.le_trans (by simpa using hab) (by simpa using hbc)
  have htotal : ∀ a b : String × ValueKind,
      (decide (a.1 ≤ b.1) || decide (b.1 ≤ a.1)) = true :=
    fun a b => by simpa using String.le_total a.1 b.1
  simpa [sortedDomains] using List.pairwise_mergeSort htrans htotal s.domains

/-- The order of declared domains does not depend on how they are given. -/
theorem sortedDomains_eq_of_perm (hs : (s.domains.map (·.1)).Nodup)
    (h : s.domains.Perm t.domains) : s.sortedDomains = t.sortedDomains := by
  have hperm : s.sortedDomains.Perm t.sortedDomains :=
    (s.sortedDomains_perm.trans h).trans t.sortedDomains_perm.symm
  refine hperm.eq_of_pairwise (fun a b ha hb hab hba => ?_) s.sortedDomains_pairwise
    t.sortedDomains_pairwise
  have ha := s.sortedDomains_perm.mem_iff.mp ha
  have hb := (t.sortedDomains_perm.trans h.symm).mem_iff.mp hb
  exact List.inj_on_of_nodup_map hs ha hb (String.le_antisymm hab hba)

/-- The content is kept where declared domains are put in order. -/
theorem isSameContent_sortedDomains (s : RuleSet) :
    IsSameContent { s with domains := s.sortedDomains } s :=
  ⟨rfl, rfl, rfl, s.sortedDomains_perm⟩

/-- The canonical record holds the declared domains in order. -/
theorem sorted_toJson (s : RuleSet) : s.toJson.sorted = .obj (sortFields [
    ("schema_version", .str s.version), ("rules", (Json.arr (s.rules.map Rule.toJson)).sorted),
    ("documents", (Json.arr (s.documents.map Document.toJson)).sorted),
    ("variable_domains", .obj (s.sortedDomains.map fun d => (d.1, .str d.2.name)))]) := by
  rw [toJson_eq, sorted_obj, canonicalFields, fields, sortedFields, sortedFields, sortedFields,
    sortedFields, sortedFields, sorted_str, sorted_obj, canonicalFields_domains, sortedDomains]

/-- Rule sets of the same content have the same canonical text. -/
theorem IsSameContent.canonicalText_eq (h : s.IsSameContent t)
    (hs : (s.domains.map (·.1)).Nodup) : s.canonicalText = t.canonicalText := by
  rw [canonicalText, canonicalText, canonical, canonical, sorted_toJson, sorted_toJson, h.version,
    h.rules, h.documents, sortedDomains_eq_of_perm hs h.domains]

end Content

section Texts

variable {cfg : Settings} {payload : Json} {s : RuleSet}

theorem isReadable_of_ofPayload (h : ofPayload payload = .ok s)
    (hdomains : (s.domains.map (·.1)).Nodup) : s.IsReadable := by
  refine ⟨fun r hr => (of_ofPayload h hr).1, fun r hr => ?_, fun d hd => ?_, hdomains⟩
  · exact (of_ofPayload h (Rule.mem_walkAll.mpr ⟨r, hr, Rule.mem_walk_self r⟩)).2
  · obtain ⟨_, _, _, -, -, _, -, hread⟩ := exists_document_of_read (read_of_ofPayload h) hd
    exact Document.isReadable_of_read hread

/-- The canonical text of an accepted rule set is read as its canonical record, and the record as
the rule set with its domains in order. -/
theorem read_canonicalText (hpayload : payload.HasDoubles) (h : parse cfg payload = .ok s)
    (hdomains : (s.domains.map (·.1)).Nodup) :
    Json.read s.canonicalText = .ok s.toJson.sorted ∧
      ofPayload s.toJson.sorted = .ok { s with domains := s.sortedDomains } := by
  obtain ⟨hread, haccepted⟩ := of_parse h
  have hportable : s.toJson.IsPortable := by
    refine isPortable_toJson hdomains (fun r hr x hx => ?_) fun d hd c hc =>
      isWritable_of_ofPayload hread hpayload hd hc
    exact ⟨(haccepted.sound r hr).isFinite x hx,
      (hasDoubles_of_ofPayload hread hpayload hr).isDouble hx⟩
  have hshort : s.toJson.HasShortIntegers := hasShortIntegers_of_integers s.integers_toJson
  refine ⟨Json.read_canonical hportable hshort, ?_⟩
  have hrecord := read_sorted (isReadable_of_ofPayload hread hdomains)
  rw [sorted_toJson] at hrecord ⊢
  rw [ofPayload, hrecord]

/-- An accepted rule set is read back from its canonical text.  Two accepted rule sets have the
same canonical text exactly if they have the same content, and the same fingerprint exactly then
too, unless the digests of two different texts of theirs coincide. -/
theorem canonicalText_faithful {cfg' : Settings} {payload' : Json} {t : RuleSet}
    (hpayload : payload.HasDoubles) (hs : parse cfg payload = .ok s)
    (hsdomains : (s.domains.map (·.1)).Nodup) (hpayload' : payload'.HasDoubles)
    (ht : parse cfg' payload' = .ok t) (htdomains : (t.domains.map (·.1)).Nodup) :
    (∃ j u, Json.read s.canonicalText = .ok j ∧ ofPayload j = .ok u ∧ u.IsSameContent s) ∧
    (s.canonicalText = t.canonicalText ↔ s.IsSameContent t) ∧
    ((Digest.digest s.canonicalText = Digest.digest t.canonicalText →
        s.canonicalText = t.canonicalText) →
      (s.fingerprint = t.fingerprint ↔ s.IsSameContent t)) := by
  obtain ⟨hstext, hsrecord⟩ := read_canonicalText hpayload hs hsdomains
  obtain ⟨httext, htrecord⟩ := read_canonicalText hpayload' ht htdomains
  have htexts : s.canonicalText = t.canonicalText ↔ s.IsSameContent t := by
    refine ⟨fun h => ?_, fun h => h.canonicalText_eq hsdomains⟩
    rw [h, httext] at hstext
    have hrecords := Except.ok.inj hstext
    rw [← hrecords, htrecord] at hsrecord
    have hsame := Except.ok.inj hsrecord
    have hordered : s.sortedDomains = t.sortedDomains := (congrArg domains hsame).symm
    exact ⟨(congrArg version hsame).symm, (congrArg rules hsame).symm,
      (congrArg documents hsame).symm,
      (s.sortedDomains_perm.symm.trans (.of_eq hordered)).trans t.sortedDomains_perm⟩
  refine ⟨⟨_, _, hstext, hsrecord, s.isSameContent_sortedDomains⟩, htexts, fun hdigest => ?_⟩
  rw [fingerprint, fingerprint, ← htexts]
  exact ⟨hdigest, fun h => congrArg Digest.digest h⟩

/-- A rule with blanks around its identifier and a bare operand, and some declared domains. -/
def residencePayload (ds : List (String × ValueKind)) : Json := .obj [
  ("rules", .arr [.obj [("rule_id", .str " r "), ("variable", .str "state"),
    ("operator", .str "IN"), ("value", Json.strs ["NY", "CA", "NY"]),
    ("clause_reference", .str "c"), ("confidence", .float Number.one)]]),
  ("variable_domains", .obj (ds.map fun d => (d.1, .str d.2.name)))]

/-- The rule set that is read from it. -/
def residence (ds : List (String × ValueKind)) : RuleSet where
  rules := [.node { id := "r", subject := "state", operator := .isIn,
                    value := some (.texts (TextSet.ofList ["NY", "CA"])), clause := "c",
                    confidence := some Number.one } []]
  domains := ds

/-- In the example the order of the declared domains is no part of the content. -/
theorem canonicalText_faithful_residence :
    let ds := [("state", ValueKind.string), ("age", .numeric)]
    let es := [("age", ValueKind.numeric), ("state", .string)]
    (residencePayload ds).HasDoubles ∧ (residencePayload es).HasDoubles ∧
      parse .standard (residencePayload ds) = .ok (residence ds) ∧
      parse .standard (residencePayload es) = .ok (residence es) ∧
      (residence ds).canonicalText = (residence es).canonicalText := by
  intro ds es
  have hdoubles : (residencePayload ds).HasDoubles ∧ (residencePayload es).HasDoubles := by
    decide +kernel
  have hread : ofPayload (residencePayload ds) = .ok (residence ds) ∧
      ofPayload (residencePayload es) = .ok (residence es) := ⟨rfl, rfl⟩
  have hfault : (residence ds).fault? .standard = none ∧
      (residence es).fault? .standard = none := by decide +kernel
  have hds : parse .standard (residencePayload ds) = .ok (residence ds) := by
    simp only [parse, hread.1, validate, hfault.1]
  have hes : parse .standard (residencePayload es) = .ok (residence es) := by
    simp only [parse, hread.2, validate, hfault.2]
  refine ⟨hdoubles.1, hdoubles.2, hds, hes, ?_⟩
  exact (canonicalText_faithful hdoubles.1 hds (by decide) hdoubles.2 hes (by decide)).2.1.mpr
    ⟨rfl, rfl, rfl, .swap _ _ _⟩

end Texts

end RuleSet
end Eligibility
