import Eligibility.PolicyGraph.Source
import Eligibility.Proofs.ComposedTrees
import Eligibility.Proofs.FaithfulCopies
import Eligibility.Proofs.Records
import Eligibility.Proofs.RoundTrip
/-!
# Written graphs are read back

**Numbers.**  What a record has to give back are finite doubles.  The numbers of a payload are
doubles; validation asks for finite ones in rules, and the readability of a clause lies between
zero and one.

**Graphs.**  A compiled graph is portable node by node, as it is laid out, and edge by edge, as it
is drawn.  A composed graph takes its nodes and edges from its parts, so that only its metadata
have to be looked at.

**Integers.**  There are no integers in a graph but positions and counts.  A position is less than
the number of edges of the compiled graph that it comes from; what is counted are nodes, edges and
the graphs of a composition.

**Results.**
* `isPortable_of_compile`, `isPortable_of_compose`: graphs that their records give back.
* `hasShortIntegers_of_compile`, `hasShortIntegers_of_compose`: the size of their integers.
* `load_toJson`: a record is loaded as a graph.
* `read_written`: graphs are read from their records, and records from their texts.
-/

namespace Eligibility

section Readings

open Schema

/-- A number that is read between two bounds is a finite double. -/
theorem Schema.isWritable_of_numberWithin {low high : Nat} {j : Json} {x : Number}
    (hj : j.HasDoubles) (h : numberWithin low high j = .ok x) : Rule.IsWritable x := by
  unfold numberWithin at h
  cases hn : number j with
  | flawed fs =>
      rw [hn] at h
      cases h
  | ok y =>
      rw [hn, Checked.bind_ok] at h
      split_ifs at h with hhigh hlow
      · cases h
      · cases h
      · cases h
        refine ⟨?_, isDouble_of_number hj hn⟩
        cases x <;> simp_all [Number.le, Number.lt, Number.same, Number.value?, Number.isFinite]

/-- The readability of a clause that is read is a finite double. -/
theorem Clause.isWritable_of_read {j : Json} {c : Clause} (hj : j.HasDoubles)
    (h : Clause.read j = .ok c) : ∀ x, c.readability = some x → Rule.IsWritable x := by
  unfold Clause.read record at h
  split at h
  · obtain ⟨_, ambiguous, h3, -, rfl⟩ := Checked.ap_eq_ok.mp h
    obtain ⟨_, readability, h2, hreadability, rfl⟩ := Checked.ap_eq_ok.mp h3
    obtain ⟨_, text, h1, -, rfl⟩ := Checked.ap_eq_ok.mp h2
    obtain ⟨id, -, rfl⟩ := Checked.map_eq_ok.mp h1
    rintro x rfl
    obtain hnone | ⟨i, hi, hread⟩ := exists_of_optional hreadability
    · cases hnone
    · exact isWritable_of_numberWithin (hj.of_mem_obj hi) (exists_of_nullable hread)
  · cases h

/-- The clauses of a document that is read are read from the items of a field. -/
theorem Document.exists_clause_of_read {j : Json} {d : Document} (h : Document.read j = .ok d)
    {c : Clause} (hc : c ∈ d.clauses) :
    ∃ fs k js, j = .obj fs ∧ (k, Json.arr js) ∈ fs ∧ ∃ i ∈ js, Clause.read i = .ok c := by
  unfold Document.read record at h
  split at h
  · obtain ⟨_, appliesTo, h5, -, rfl⟩ := Checked.ap_eq_ok.mp h
    obtain ⟨_, prerequisites, h4, -, rfl⟩ := Checked.ap_eq_ok.mp h5
    obtain ⟨_, clauses, h3, hclauses, rfl⟩ := Checked.ap_eq_ok.mp h4
    obtain ⟨_, entity, h2, -, rfl⟩ := Checked.ap_eq_ok.mp h3
    obtain ⟨_, title, h1, -, rfl⟩ := Checked.ap_eq_ok.mp h2
    obtain ⟨policy, -, rfl⟩ := Checked.map_eq_ok.mp h1
    rcases exists_of_optional hclauses with rfl | ⟨k, hk, hread⟩
    · cases hc
    · obtain ⟨js, rfl, hitem⟩ := exists_of_mem_sequence hread hc
      exact ⟨_, _, js, rfl, hk, hitem⟩
  · cases h

/-- The documents of a rule set that is read are read from the items of a field. -/
theorem RuleSet.exists_document_of_read {j : Json} {s : RuleSet} (h : RuleSet.read j = .ok s)
    {d : Document} (hd : d ∈ s.documents) :
    ∃ fs k js, j = .obj fs ∧ (k, Json.arr js) ∈ fs ∧ ∃ i ∈ js, Document.read i = .ok d := by
  unfold RuleSet.read record at h
  split at h
  · obtain ⟨_, domains, h3, -, rfl⟩ := Checked.ap_eq_ok.mp h
    obtain ⟨_, documents, h2, hdocuments, rfl⟩ := Checked.ap_eq_ok.mp h3
    obtain ⟨_, rules, h1, -, rfl⟩ := Checked.ap_eq_ok.mp h2
    obtain ⟨version, -, rfl⟩ := Checked.map_eq_ok.mp h1
    rcases exists_of_optional hdocuments with rfl | ⟨k, hk, hread⟩
    · cases hd
    · obtain ⟨js, rfl, hitem⟩ := exists_of_mem_sequence hread hd
      exact ⟨_, _, js, rfl, hk, hitem⟩
  · cases h

/-- The clauses of a payload of doubles have doubles for their readability. -/
theorem RuleSet.isWritable_of_ofPayload {payload : Json} {s : RuleSet}
    (h : ofPayload payload = .ok s) (hpayload : payload.HasDoubles) {d : Document}
    (hd : d ∈ s.documents) {c : Clause} (hc : c ∈ d.clauses) :
    ∀ x, c.readability = some x → Rule.IsWritable x := by
  obtain ⟨fs, _, js, rfl, hjs, i, hi, hread⟩ := exists_document_of_read (read_of_ofPayload h) hd
  have hi := (hpayload.of_mem_obj hjs).of_mem_arr hi
  obtain ⟨gs, _, ks, rfl, hks, k, hk, hclause⟩ := Document.exists_clause_of_read hread hc
  exact Clause.isWritable_of_read ((hi.of_mem_obj hks).of_mem_arr hk) hclause

theorem RuleSet.readability_of_declare {owned : List String} {rs : List Rule} {d : Document}
    (hd : d ∈ declare owned rs) : ∀ c ∈ d.clauses, c.readability = none := by
  induction rs generalizing owned with
  | nil => cases hd
  | cons r rs ih =>
      rcases List.mem_cons.mp hd with rfl | hd
      · simp
      · exact ih hd

end Readings

section Compiled

variable {cfg : Settings} {p : Plan}

theorem Node.isPortable_of_ofFields {k : String} {kind : NodeKind} {fs : List (String × Property)}
    {x : Number} (hkeys : (fs.map (·.1)).Nodup) (hfs : fs.Forall fun f => f.2.IsPortable f.1)
    (hx : Rule.IsWritable x) : (Node.mk (.str k) kind (.ofFields fs) x).IsPortable :=
  ⟨⟨k, rfl⟩, ⟨fs, rfl, hkeys, List.forall_iff_forall_mem.mp hfs⟩, hx⟩

theorem isWritable_one : Rule.IsWritable Number.one := ⟨rfl, by decide +kernel⟩

theorem Property.isPortable_json {k : String} {j : Json} (hj : j.IsPortable) (hk : k ≠ "value") :
    (json j).IsPortable k :=
  ⟨hj, fun h => absurd h hk⟩

/-- What a condition has for an operand. -/
theorem Property.isPortable_value {o : Option Operand}
    (ho : ∀ x, o = some (.number x) → Rule.IsWritable x) :
    ((o.map operand).getD (.json .null)).IsPortable "value" := by
  cases o with
  | none => exact ⟨.null, fun _ => rfl⟩
  | some v => exact ⟨rfl, Operand.isPortable_bare fun x hx => ho x (congrArg some hx)⟩

theorem Draft.isPortable_toEdge (n : Nat) (d : Draft) : (d.toEdge n).IsPortable :=
  ⟨⟨_, rfl⟩, ⟨_, rfl⟩, ⟨_, rfl⟩, ⟨d.label, rfl⟩⟩

namespace Plan

theorem isPortable_policyNode (d : Document) (roots : List Rule) :
    (policyNode cfg d roots).IsPortable := by
  refine Node.isPortable_of_ofFields (by simp) ?_ isWritable_one
  simp [List.Forall, Property.IsPortable, Json.isPortable_strs, Json.IsPortable.str,
    Json.IsPortable.bool]

theorem isPortable_clauseNode (policy : String) {c : Clause}
    (hc : ∀ x, c.readability = some x → Rule.IsWritable x) :
    (clauseNode policy c).IsPortable := by
  refine Node.isPortable_of_ofFields (by simp) ?_ isWritable_one
  simp [List.Forall, Property.IsPortable, Json.isPortable_float? hc, Json.IsPortable.str,
    Json.IsPortable.bool]

theorem isPortable_externalNode (policy : String) : (externalNode policy).IsPortable := by
  refine Node.isPortable_of_ofFields (by simp) ?_ isWritable_one
  have hroots : (Json.arr []).IsPortable := .arr (List.forall_mem_nil _)
  simp [List.Forall, Property.IsPortable, hroots, Json.IsPortable.null, Json.IsPortable.str,
    Json.IsPortable.bool]

theorem isPortable_entityNode (name : String) : (entityNode name).IsPortable := by
  refine Node.isPortable_of_ofFields (by simp) ?_ isWritable_one
  simp [List.Forall, Property.IsPortable, Json.IsPortable.str]

theorem isPortable_thresholdNode (h : Head) {x : Number} (hx : Rule.IsWritable x) :
    (thresholdNode h x).IsPortable := by
  refine Node.isPortable_of_ofFields (by simp) ?_ isWritable_one
  have hbare : (Operand.number x).bare.IsPortable := Json.isPortable_float hx
  simp [List.Forall, Property.IsPortable, hbare, Json.IsPortable.str]

theorem isPortable_conditionNode (policy : String) {h : Head}
    (hh : ∀ x ∈ h.numbers, Rule.IsWritable x) : (conditionNode cfg policy h).IsPortable := by
  have hconfidence : Rule.IsWritable (h.confidence.getD Number.one) := by
    cases hc : h.confidence with
    | none => exact isWritable_one
    | some x => exact hh x (Head.mem_numbers_confidence hc)
  have hvalue := Property.isPortable_value fun x hx => hh x (Head.mem_numbers_value hx)
  refine Node.isPortable_of_ofFields (by simp) ?_ hconfidence
  simp [List.Forall, Property.isPortable_json, hvalue, Json.isPortable_str?, Json.IsPortable.str,
    Json.IsPortable.bool]

/-- Whatever is laid out is given back by its record. -/
theorem isPortable_of_mem_layout
    (hheads : ∀ q ∈ p.placed, ∀ x ∈ q.2.head.numbers, Rule.IsWritable x)
    (hclauses : ∀ d ∈ p.documents, ∀ c ∈ d.clauses, ∀ x, c.readability = some x →
      Rule.IsWritable x)
    {n : Node} (hn : n ∈ p.layout cfg) : n.IsPortable := by
  rcases mem_layout.mp hn with
    ⟨d, -, rfl⟩ | ⟨d, hd, c, hc, rfl⟩ | ⟨d, -, t, -, rfl⟩ | ⟨q, hq, rfl | ho⟩
  · exact isPortable_policyNode d _
  · exact isPortable_clauseNode d.policy (hclauses d hd c hc)
  · exact isPortable_externalNode t
  · exact isPortable_conditionNode q.1 (hheads q hq)
  · rcases mem_operandNodes ho with ⟨x, hx, rfl⟩ | ⟨s, rfl⟩
    · exact isPortable_thresholdNode q.2.head (hheads q hq x (Head.mem_numbers_value hx))
    · exact isPortable_entityNode s

theorem isPortable_metadata (s : RuleSet) : (Json.obj (p.metadata cfg s)).IsPortable := by
  refine Json.isPortable_obj (by simp [metadata]) ?_
  simp [metadata, List.Forall, Json.nat, Json.IsPortable.str, Json.IsPortable.int]

end Plan

namespace PolicyGraph

/-- The record of a compiled graph gives the graph back. -/
theorem isPortable_of_compile {payload : Json} {g : PolicyGraph} (hpayload : payload.HasDoubles)
    (h : (RuleSet.compile cfg payload).outcome = .ok g) : g.IsPortable := by
  obtain ⟨s, hs, hvalid, hg⟩ := exists_of_compile h
  obtain ⟨p, g', hp, hg', hdrawn, hmetadata⟩ := RuleSet.exists_build_of_validate hvalid
  obtain rfl : g' = g := Except.ok.inj (hg'.symm.trans hg)
  have haccepted := (RuleSet.isAccepted_of_validate hvalid).1
  have hheads : ∀ q ∈ p.placed, ∀ x ∈ q.2.head.numbers, Rule.IsWritable x := by
    intro q hq x hx
    have hr : q.2 ∈ Rule.walkAll s.rules :=
      (RuleSet.placed_perm haccepted hp).mem_iff.mp (List.mem_map_of_mem hq)
    exact ⟨(haccepted.sound q.2 hr).isFinite x hx,
      (RuleSet.hasDoubles_of_ofPayload hs hpayload hr).isDouble hx⟩
  have hclauses : ∀ d ∈ p.documents, ∀ c ∈ d.clauses, ∀ x, c.readability = some x →
      Rule.IsWritable x := by
    intro d hd c hc x hx
    have hmode := (RuleSet.plan_spec hp).2
    split_ifs at hmode with he
    · -- a document that stands for a rule says nothing of the readability of its clauses
      rw [hmode.1] at hd
      rw [RuleSet.readability_of_declare hd c hc] at hx
      cases hx
    · rw [hmode.1] at hd
      exact RuleSet.isWritable_of_ofPayload hs hpayload hd hc x hx
  refine ⟨fun n hn => Plan.isPortable_of_mem_layout hheads hclauses (hdrawn.mem_nodes hn),
    fun e he => ?_, ⟨_, hmetadata, Plan.isPortable_metadata s⟩, ?_⟩
  · obtain ⟨m, d, -, rfl⟩ := hdrawn.mem_edges.mp he
    exact d.isPortable_toEdge m
  · rw [hdrawn.nodes, hdrawn.edges]
    exact Plan.fault?_eq_none_of_plan hdrawn.sound

end PolicyGraph

end Compiled

section Integers
open Number

variable {cfg : Settings} {p : Plan} {g : PolicyGraph}

namespace Plan

/-- What is laid out holds no integers. -/
theorem integers_of_mem_layout {n : Node} (hn : n ∈ p.layout cfg) : n.toJson.integers = [] := by
  rcases mem_layout.mp hn with
    ⟨d, -, rfl⟩ | ⟨d, -, c, -, rfl⟩ | ⟨d, -, t, -, rfl⟩ | ⟨q, -, rfl | ho⟩
  · simp [policyNode, Node.integers_toJson, Property.toJson, Json.integers, Json.integers_strs]
  · simp [clauseNode, Node.integers_toJson, Property.toJson, Json.integers, Json.integers_float?]
  · simp [externalNode, Node.integers_toJson, Property.toJson, Json.integers,
      Json.integersOfItems]
  · rw [conditionNode, Node.integers_toJson]
    cases q.2.head.value <;>
      simp [Property.toJson, Json.integers, Json.integers_str?, Operand.integers_toJson]
  · rcases mem_operandNodes ho with ⟨x, -, rfl⟩ | ⟨s, rfl⟩
    · simp [thresholdNode, Node.integers_toJson, Property.toJson, Json.integers,
        Operand.integers_toJson]
    · simp [entityNode, Node.integers_toJson, Property.toJson, Json.integers]

end Plan

/-- The position that a label gives. -/
def Label.position? : Label → Option Nat
  | root position => some position
  | operand _ position => some position
  | _ => none

theorem Label.integers_properties (l : Label) :
    Json.integersOfFields l.properties = l.position?.toList.map Int.ofNat := by
  cases l <;> rfl

namespace Plan

/-- The dependencies of a node are no more than the edges, and neither are their positions. -/
theorem position_lt {α : Type} {P : Draft → Bool} {xs : List α} {f : α × Nat → Draft}
    (h : (p.drawn.filter P).Perm (xs.zipIdx.map f)) {c : α × Nat} (hc : c ∈ xs.zipIdx) :
    c.2 < p.drawn.length :=
  calc c.2 < xs.length := List.snd_lt_of_mem_zipIdx hc
    _ = (p.drawn.filter P).length := by simp [h.length_eq]
    _ ≤ p.drawn.length := List.length_filter_le _ _

theorem position?_of_mem_ownDrafts {ds : List Document} {policy : String} {h : Head} {d : Draft}
    (hd : d ∈ ownDrafts ds policy h) : d.label.position? = none := by
  unfold ownDrafts clauseDrafts operandDrafts at hd
  grind [Label.position?]

theorem position?_of_mem_mentionDrafts {e : Document} {d : Draft} (hd : d ∈ mentionDrafts e) :
    d.label.position? = none := by
  unfold mentionDrafts at hd
  grind [Label.position?]

/-- A position is less than the number of edges. -/
theorem position?_lt (hp : p.IsSound) {d : Draft} (hd : d ∈ p.drafts) {n : Nat}
    (hn : d.label.position? = some n) : n < p.drawn.length := by
  rcases mem_drafts.mp hd with
    ⟨e, -, c, -, rfl⟩ | ⟨e, he, hlink⟩ | ⟨q, hq, hown | hlink⟩ | ⟨e, -, hmention⟩
  · cases hn
  · obtain ⟨c, hc, rfl⟩ := List.mem_map.mp hlink
    cases hn
    exact position_lt (filter_rootLinks hp he) hc
  · rw [position?_of_mem_ownDrafts hown] at hn
    cases hn
  · obtain ⟨c, hc, rfl⟩ := List.mem_map.mp hlink
    cases hn
    exact position_lt (filter_links hp hq) hc
  · rw [position?_of_mem_mentionDrafts hmention] at hn
    cases hn

end Plan

theorem Draft.length_number (n : Nat) (ds : List Draft) : (number n ds).length = ds.length := by
  induction ds generalizing n with
  | nil => rfl
  | cons d r ih => rw [number, List.length_cons, ih, List.length_cons]

namespace PolicyGraph

/-- The metadata of a compiled graph hold no integers but counts of nodes and edges. -/
theorem IsCounted.hasShortIntegers {s : RuleSet} (h : g.IsCounted)
    (hg : g.metadata = .ofFields (p.metadata cfg s)) (hnodes : g.nodes.length < 10 ^ digitLimit)
    (hedges : g.edges.length < 10 ^ digitLimit) :
    (Json.obj (p.metadata cfg s)).HasShortIntegers := by
  have hcount : ∀ k n, g.metadata.get? k = some (Json.nat n) → n < 10 ^ digitLimit →
      ∀ j, (p.metadata cfg s).lookup k = some j → j.HasShortIntegers := by
    intro k n hget hn j hj
    rw [hg, Entries.get?_ofFields, hj] at hget
    cases hget
    exact Json.hasShortIntegers_nat hn
  have hkinds : ∀ k, (g.nodesOfKind k).length < 10 ^ digitLimit := fun k =>
    (List.length_filter_le _ g.nodes).trans_lt hnodes
  have hpolicies : (g.policies false).length < 10 ^ digitLimit :=
    (List.length_filter_le _ _).trans_lt (hkinds .policy)
  have hlow := (List.length_filter_le (fun n => (n.get "low_confidence").truthy)
    (g.nodesOfKind .condition)).trans_lt (hkinds .condition)
  rw [Json.hasShortIntegers_obj]
  simp only [Plan.metadata, List.forall_mem_cons]
  exact ⟨Json.hasShortIntegers_of_integers rfl, Json.hasShortIntegers_of_integers rfl,
    hcount _ _ h.policies hpolicies _ rfl, hcount _ _ h.clauses (hkinds .clause) _ rfl,
    hcount _ _ h.conditions (hkinds .condition) _ rfl, hcount _ _ h.low hlow _ rfl,
    hcount _ _ h.nodes hnodes _ rfl, hcount _ _ h.edges hedges _ rfl, List.forall_mem_nil _⟩

/-- The integers of a compiled graph are short, unless it has more nodes or edges than that. -/
theorem hasShortIntegers_of_compile {payload : Json}
    (h : (RuleSet.compile cfg payload).outcome = .ok g) (hnodes : g.nodes.length < 10 ^ digitLimit)
    (hedges : g.edges.length < 10 ^ digitLimit) : g.toJson.HasShortIntegers := by
  obtain ⟨s, hs, hvalid, hg⟩ := exists_of_compile h
  obtain ⟨p, g', hp, hg', hdrawn, hmetadata⟩ := RuleSet.exists_build_of_validate hvalid
  obtain rfl : g' = g := Except.ok.inj (hg'.symm.trans hg)
  have hcounted := hdrawn.isCounted (RuleSet.isAccepted_of_validate hvalid).1 hp hmetadata
  refine (hasShortIntegers_toJson hmetadata).mpr ⟨fun n hn => ?_, fun e he => ?_,
    hcounted.hasShortIntegers hmetadata hnodes hedges⟩
  · exact Json.hasShortIntegers_of_integers
      (Plan.integers_of_mem_layout (hdrawn.mem_nodes hn))
  · obtain ⟨m, d, hd, rfl⟩ := hdrawn.mem_edges.mp he
    intro n hn
    rw [Edge.integers_toJson (d.isPortable_toEdge m), Draft.toEdge, Entries.spelled_ofFields,
      Label.integers_properties, List.mem_map] at hn
    obtain ⟨k, hk, rfl⟩ := hn
    have hposition : k < p.drawn.length :=
      Plan.position?_lt hdrawn.sound (Plan.mem_drawn.mp (List.mem_of_getElem? hd))
        (Option.mem_toList.mp hk)
    rw [← Draft.length_number 0 p.drawn, Plan.drawn, ← Plan.edges, ← hdrawn.edges] at hposition
    exact hposition.trans hedges

end PolicyGraph

end Integers

section Composed
open Number

theorem Edge.IsPortable.renumbered {e : Edge} (h : e.IsPortable) (m : Nat) :
    ({ e with id := Edge.numbered m } : Edge).IsPortable :=
  ⟨⟨_, rfl⟩, h.source, h.target, h.label⟩

/-- What a mapping has for a key, or null. -/
theorem Entries.getD_of_forall {P : Json → Prop} (hnull : P .null) {fs : List (String × Json)}
    (h : ∀ f ∈ fs, P f.2) (k : String) : P (((Entries.ofFields fs).get? k).getD .null) := by
  rw [Entries.get?_ofFields]
  cases hl : fs.lookup k with
  | none => exact hnull
  | some j => exact h _ (mem_of_lookup hl)

namespace PolicyGraph

theorem length_firstTies_le (seen ts : List Tie) : (firstTies seen ts).length ≤ ts.length := by
  induction ts generalizing seen with
  | nil => exact le_rfl
  | cons t r ih =>
      unfold firstTies
      split_ifs
      · exact (ih seen).trans (Nat.le_succ _)
      · exact Nat.succ_le_succ (ih _)

theorem length_renumber (n : Nat) (es : List Edge) : (renumber n es).length = es.length := by
  induction es generalizing n with
  | nil => rfl
  | cons e r ih => rw [renumber, List.length_cons, ih, List.length_cons]

variable {gs : List PolicyGraph} {c : PolicyGraph}

theorem length_composeEdges_le {es : List Edge} (h : composeEdges gs = .ok es) :
    es.length ≤ (gs.flatMap PolicyGraph.edges).length := by
  obtain ⟨ts, hts, rfl⟩ := Attempt.map_eq_ok.mp h
  rw [length_renumber, ← (tiesOf_eq_ok hts).1, List.length_map]
  exact length_firstTies_le [] ts

theorem metadata_of_make {ns : List Node} {es : List Edge} {m : Entries Json} {g : PolicyGraph}
    (h : make ns es m = .ok g) : g.metadata = m := by
  unfold make at h
  split at h
  · cases h
  · cases h
    rfl

theorem IsComposedOf.mem_parts (h : c.IsComposedOf gs) {n : Node} (hn : n ∈ c.nodes) :
    n ∈ gs.flatMap PolicyGraph.nodes :=
  (h.absorbs.origin n hn).resolve_left List.not_mem_nil

theorem IsComposedOf.length_nodes_le (h : c.IsComposedOf gs) :
    c.nodes.length ≤ (gs.flatMap PolicyGraph.nodes).length := by
  have hnodup : c.nodes.Nodup := (h.absorbs.nodup List.nodup_nil).of_map
  exact (hnodup.subperm fun n hn => h.mem_parts hn).length_le

/-- A composed graph is one of several graphs, unless it is the only one. -/
theorem isComposedOf_of_portable (hgs : ∀ g ∈ gs, g.IsPortable) (h : compose gs = .ok c) :
    gs = [c] ∨ c.IsComposedOf gs ∧ fault? c.nodes c.edges = none ∧
      c.metadata = .ofFields (composedMetadata gs c.nodes c.edges) := by
  unfold compose at h
  split at h
  · cases h
    exact .inl rfl
  · split at h
    · cases h
    · cases h
    next ns es hns hes =>
    obtain ⟨rfl, rfl, hsound⟩ := make_eq_ok h
    have habsorbs := absorbs_of_composeNodes (fun g hg n hn => ((hgs g hg).nodes n hn).id) hns
    exact .inr ⟨⟨habsorbs, hes⟩, hsound, metadata_of_make h⟩

/-- The record of a composed graph gives the graph back, if those of its parts do. -/
theorem isPortable_of_compose (hgs : ∀ g ∈ gs, g.IsPortable) (h : compose gs = .ok c) :
    c.IsPortable := by
  rcases isComposedOf_of_portable hgs h with rfl | ⟨hc, hsound, hmetadata⟩
  · exact hgs c List.mem_cons_self
  refine ⟨fun n hn => ?_, fun e he => ?_, ⟨_, hmetadata, ?_⟩, hsound⟩
  · obtain ⟨g, hg, hn⟩ := List.mem_flatMap.mp (hc.mem_parts hn)
    exact (hgs g hg).nodes n hn
  · obtain ⟨g, hg, e', he', m, rfl⟩ := mem_of_composeEdges hc.edges e he
    exact ((hgs g hg).edges e' he').renumbered m
  · have hfingerprints : ∀ g ∈ gs, ((g.metadata.get? "fingerprint").getD .null).IsPortable := by
      intro g hg
      obtain ⟨fs, hmetadata, hfs⟩ := (hgs g hg).metadata
      rw [hmetadata]
      cases hfs with
      | obj hkeys hfs => exact Entries.getD_of_forall .null hfs _
    refine Json.isPortable_obj (by simp [composedMetadata]) ?_
    simp only [composedMetadata, List.Forall]
    refine ⟨.arr (List.forall_mem_map.mpr hfingerprints), .int _, .int _, .int _⟩

/-- The integers of a composed graph are short if those of its parts are, unless there are too
many parts, or too many nodes or edges in them. -/
theorem hasShortIntegers_of_compose (hgs : ∀ g ∈ gs, g.IsPortable)
    (hshort : ∀ g ∈ gs, g.toJson.HasShortIntegers) (h : compose gs = .ok c)
    (hcount : gs.length < 10 ^ digitLimit)
    (hnodes : (gs.flatMap PolicyGraph.nodes).length < 10 ^ digitLimit)
    (hedges : (gs.flatMap PolicyGraph.edges).length < 10 ^ digitLimit) :
    c.toJson.HasShortIntegers := by
  rcases isComposedOf_of_portable hgs h with rfl | ⟨hc, -, hmetadata⟩
  · exact hshort c List.mem_cons_self
  have hparts : ∀ g ∈ gs, ∃ fs, g.metadata = .ofFields fs ∧
      (∀ n ∈ g.nodes, n.toJson.HasShortIntegers) ∧
      (∀ e ∈ g.edges, e.toJson.HasShortIntegers) ∧ (Json.obj fs).HasShortIntegers := by
    intro g hg
    obtain ⟨fs, hmetadata, -⟩ := (hgs g hg).metadata
    exact ⟨fs, hmetadata, (hasShortIntegers_toJson hmetadata).mp (hshort g hg)⟩
  refine (hasShortIntegers_toJson hmetadata).mpr ⟨fun n hn => ?_, fun e he => ?_, ?_⟩
  · obtain ⟨g, hg, hn⟩ := List.mem_flatMap.mp (hc.mem_parts hn)
    obtain ⟨-, -, hparts, -⟩ := hparts g hg
    exact hparts n hn
  · obtain ⟨g, hg, e', he', m, rfl⟩ := mem_of_composeEdges hc.edges e he
    obtain ⟨-, -, -, hparts, -⟩ := hparts g hg
    have hportable := (hgs g hg).edges e' he'
    -- the number that an edge gets is part of a text, and so no integer
    have hintegers : ({ e' with id := Edge.numbered m } : Edge).toJson.integers =
        e'.toJson.integers := by
      rw [Edge.integers_toJson (hportable.renumbered m), Edge.integers_toJson hportable]
    exact fun n hn => hparts e' he' n (hintegers ▸ hn)
  · have hfingerprints : ∀ g ∈ gs,
        ((g.metadata.get? "fingerprint").getD .null).HasShortIntegers := by
      intro g hg
      obtain ⟨fs, hmetadata, -, -, hfs⟩ := hparts g hg
      rw [hmetadata]
      exact Entries.getD_of_forall (Json.hasShortIntegers_of_integers rfl)
        (Json.hasShortIntegers_obj.mp hfs) _
    rw [Json.hasShortIntegers_obj]
    simp only [composedMetadata, List.forall_mem_cons]
    exact ⟨Json.hasShortIntegers_arr.mpr (List.forall_mem_map.mpr hfingerprints),
      Json.hasShortIntegers_nat hcount,
      Json.hasShortIntegers_nat (hc.length_nodes_le.trans_lt hnodes),
      Json.hasShortIntegers_nat ((length_composeEdges_le hc.edges).trans_lt hedges),
      List.forall_mem_nil _⟩

/-- A graph that is compiled out of a payload, or composed of such graphs. -/
inductive IsAssembled : PolicyGraph → Prop where
  | compiled {cfg : Settings} {payload : Json} {g : PolicyGraph} (hpayload : payload.HasDoubles)
      (h : (RuleSet.compile cfg payload).outcome = .ok g) : IsAssembled g
  | composed {gs : List PolicyGraph} {c : PolicyGraph} (hgs : ∀ g ∈ gs, IsAssembled g)
      (h : compose gs = .ok c) : IsAssembled c

theorem IsAssembled.isPortable {g : PolicyGraph} (h : g.IsAssembled) : g.IsPortable := by
  induction h with
  | compiled hpayload h => exact isPortable_of_compile hpayload h
  | composed hgs h ih => exact isPortable_of_compose ih h

/-- The record of a graph is not taken for that of a rule set. -/
theorem load_toJson (cfg : Settings) {g : PolicyGraph} (h : g.IsPortable) :
    load cfg g.toJson = ⟨[], .ok g⟩ := by
  have hrecord : isRecord g.toJson = .ok true := rfl
  rw [load, hrecord]
  simp only [read_toJson h, Logged.ofExcept]

/-- The graph that is read from the record of a graph is the graph: the same nodes and edges in the
same order, and the same metadata.  So it answers every question as the graph does.  The record
itself is read from its text, unless an integer in it, a position or a count, has too many digits
to be read. -/
theorem read_written {g : PolicyGraph} (h : g.IsAssembled) :
    read g.toJson = .ok g ∧
      (g.toJson.HasShortIntegers → Json.read g.toJson.compact = .ok g.toJson) :=
  ⟨read_toJson h.isPortable, Json.read_compact (isPortable_toJson h.isPortable)⟩

end PolicyGraph

end Composed

section Witness
open Number

/-- A policy that the shared rule set requires and does not declare. -/
def required : RuleSet where
  rules := [.node { id := "l", subject := "resident", operator := .eq, value := some (.flag true),
                    clause := "e", confidence := some (.finite (1 / 2)) } []]
  documents := [{ policy := "q", clauses := [{ id := "e", readability := some Number.one }] }]

/-- The plan of a rule set all of whose trees belong to one policy. -/
def RuleSet.planFor (s : RuleSet) (policy : String) : Plan := ⟨s.documents, s.rules.map (policy, ·)⟩

namespace PolicyGraph

theorem exists_joined {s : RuleSet} {a : String}
    (h : s = shared ∧ a = "p" ∨ s = required ∧ a = "q") :
    ∃ g, s.toJson.HasDoubles ∧ (RuleSet.compile .standard s.toJson).outcome = .ok g ∧
      g.IsDrawnFrom .standard (s.planFor a) ∧ g.nodes.length ≤ 20 ∧ g.edges.length ≤ 20 := by
  have hread : s.toJson.HasDoubles ∧ RuleSet.ofPayload s.toJson = .ok s ∧
      s.fault? .standard = none ∧ s.plan = .ok (s.planFor a) ∧
      ((s.planFor a).nodes .standard).length ≤ 20 ∧ (s.planFor a).edges.length ≤ 20 := by
    rcases h with ⟨rfl, rfl⟩ | ⟨rfl, rfl⟩ <;>
      exact ⟨by decide +kernel, rfl, by decide +kernel, rfl, by decide +kernel, by decide +kernel⟩
  obtain ⟨hdoubles, hread, hfault, hplan, hnodes, hedges⟩ := hread
  have hvalid : s.validate .standard = .ok s := by rw [RuleSet.validate, hfault]
  obtain ⟨p, g, hp, hg, hdrawn, -⟩ := RuleSet.exists_build_of_validate hvalid
  obtain rfl : s.planFor a = p := Except.ok.inj (hplan.symm.trans hp)
  exact ⟨g, hdoubles, (outcome_compile hread hvalid).trans hg, hdrawn, hdrawn.nodes ▸ hnodes,
    hdrawn.edges ▸ hedges⟩

/-- A policy and the one that it requires are composed, written and read. -/
theorem read_written_joined : ∃ g g' c : PolicyGraph,
    (RuleSet.compile .standard shared.toJson).outcome = .ok g ∧
    (RuleSet.compile .standard required.toJson).outcome = .ok g' ∧ compose [g, g'] = .ok c ∧
    c.IsAssembled ∧ read c.toJson = .ok c ∧ Json.read c.toJson.compact = .ok c.toJson := by
  obtain ⟨g, hpayload, hg, hdrawn, hnodes, hedges⟩ := exists_joined (.inl ⟨rfl, rfl⟩)
  obtain ⟨g', hpayload', hg', hdrawn', hnodes', hedges'⟩ := exists_joined (.inr ⟨rfl, rfl⟩)
  have hok : (composeNodes 0 [] [g, g']).isOk = true := by
    simp only [composeNodes, hdrawn.nodes, hdrawn'.nodes]
    decide +kernel
  obtain ⟨ns, hns⟩ : ∃ ns, composeNodes 0 [] [g, g'] = .ok ns := by
    cases hns : composeNodes 0 [] [g, g'] with
    | error f => simp [hns, Except.isOk, Except.toBool] at hok
    | ok ns => exact ⟨ns, rfl⟩
  have hboth : ∀ {P : PolicyGraph → Prop}, P g → P g' → ∀ x ∈ [g, g'], P x := by
    intro P hP hP' x hx
    rcases List.mem_pair.mp hx with rfl | rfl
    · exact hP
    · exact hP'
  obtain ⟨c, hc⟩ := exists_compose
    (hboth (isCompiled_of_compile hg).isTextual (isCompiled_of_compile hg').isTextual) hns
  have hgs := hboth (IsAssembled.compiled hpayload hg) (.compiled hpayload' hg')
  have hassembled := IsAssembled.composed hgs hc
  have hlimit : 40 < 10 ^ digitLimit := by decide +kernel
  have hshort : c.toJson.HasShortIntegers := by
    refine hasShortIntegers_of_compose (fun x hx => (hgs x hx).isPortable)
      (hboth ?_ ?_) hc (by simp; omega) (by simp; omega) (by simp; omega)
    · exact hasShortIntegers_of_compile hg (by omega) (by omega)
    · exact hasShortIntegers_of_compile hg' (by omega) (by omega)
  obtain ⟨hrecord, htext⟩ := read_written hassembled
  exact ⟨g, g', c, hg, hg', hc, hassembled, hrecord, htext hshort⟩

end PolicyGraph

end Witness

end Eligibility
