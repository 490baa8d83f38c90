import Eligibility.Proofs.Lookup
/-!
# The conditions on graphs

**Conditions.**  Nodes have names that differ, edges join nodes, and what nodes are looked up by
and what edges are called is a name.  The checks that are made one after another pass exactly the
nodes and the edges that meet all of them.

**Results.**
* `nodeFault?_eq_none_iff`, `edgeFault?_eq_none_iff`: what each check passes.
* `fault?_eq_none_iff`: of what a graph is made.
* `areDistinct_iff_nodup`, `isEnd_str_iff`: nodes that are named by texts.
-/

namespace Eligibility
namespace PolicyGraph

section Checks

/-- Whether nodes have names that differ. -/
structure AreDistinct (ns : List Node) : Prop where
  usable : ∀ n ∈ ns, Name.isUsable n.id = true
  distinct : ns.Pairwise fun m n => n.id.alike m.id = false

/-- Whether a name is that of a node. -/
def IsEnd (ns : List Node) (n : Name) : Prop :=
  Name.isUsable n = true ∧ n.among (ns.map Node.id) = true

/-- Whether edges join nodes. -/
def AreJoined (ns : List Node) (es : List Edge) : Prop :=
  ∀ e ∈ es, IsEnd ns e.source ∧ IsEnd ns e.target

/-- Whether nodes and edges meet the conditions on graphs. -/
structure MakeGraph (ns : List Node) (es : List Edge) : Prop where
  distinct : AreDistinct ns
  joined : AreJoined ns es
  indexable : ∀ n ∈ ns, isIndexable n = true
  named : ∀ n ∈ ns, n.id ≠ .null
  labelled : ∀ e ∈ es, Name.isUsable e.id = true

variable {ns : List Node} {es : List Edge} {seen : List Name}

/-- The check of nodes passes nodes whose names differ, from each other and from those seen. -/
theorem nodeFault?_eq_none_iff : nodeFault? seen ns = none ↔
    AreDistinct ns ∧ ∀ n ∈ ns, n.id.among seen = false := by
  induction ns generalizing seen with
  | nil => simpa [nodeFault?] using AreDistinct.mk (List.forall_mem_nil _) .nil
  | cons n r ih =>
      rw [nodeFault?]
      constructor
      · intro h
        split_ifs at h with husable hamong
        obtain ⟨⟨hu, hd⟩, hnew⟩ := ih.mp h
        have hboth : ∀ m ∈ r, m.id.alike n.id = false ∧ m.id.among seen = false := by
          intro m hm
          simpa [Json.among] using hnew m hm
        refine ⟨⟨List.forall_mem_cons.mpr ⟨by simpa using husable, hu⟩, ?_⟩, ?_⟩
        · exact .cons (fun m hm => (hboth m hm).1) hd
        · exact List.forall_mem_cons.mpr ⟨by simpa using hamong, fun m hm => (hboth m hm).2⟩
      · rintro ⟨⟨hu, hd⟩, hnew⟩
        obtain ⟨hun, hur⟩ := List.forall_mem_cons.mp hu
        obtain ⟨hdn, hdr⟩ := List.pairwise_cons.mp hd
        obtain ⟨hnewn, hnewr⟩ := List.forall_mem_cons.mp hnew
        rw [if_neg (by simp [hun]), if_neg (by simp [hnewn])]
        refine ih.mpr ⟨⟨hur, hdr⟩, fun m hm => ?_⟩
        have hseen := hnewr m hm
        simp only [Json.among, List.any_cons, hdn m hm, Bool.false_or] at hseen ⊢
        exact hseen

theorem nodeFault?_nil_eq_none_iff : nodeFault? [] ns = none ↔ AreDistinct ns := by
  simp [nodeFault?_eq_none_iff, Json.among]

theorem endpointFault?_eq_none_iff {e : Edge} {n : Name} :
    endpointFault? (ns.map Node.id) e n = none ↔ IsEnd ns n := by
  unfold endpointFault? IsEnd
  cases Name.isUsable n <;> cases n.among (ns.map Node.id) <;> simp

theorem edgeFault?_eq_none_iff : edgeFault? (ns.map Node.id) es = none ↔ AreJoined ns es := by
  simp only [AreJoined, edgeFault?, List.findSome?_eq_none_iff, Option.or_eq_none_iff,
    endpointFault?_eq_none_iff]

theorem isNull_iff {n : Name} : isNull n = true ↔ n = .null := by cases n <;> simp [isNull]

/-- A graph is made of the nodes and edges that meet the conditions. -/
theorem fault?_eq_none_iff : fault? ns es = none ↔ MakeGraph ns es := by
  rw [fault?, Option.or_eq_none_iff, Option.or_eq_none_iff, nodeFault?_nil_eq_none_iff,
    edgeFault?_eq_none_iff]
  constructor
  · rintro ⟨⟨hns, hes⟩, hrest⟩
    split_ifs at hrest with hindex hnull hid
    exact ⟨hns, hes, by simpa using hindex, by simpa [isNull_iff] using hnull, by simpa using hid⟩
  · rintro ⟨hns, hes, hindex, hnull, hid⟩
    refine ⟨⟨hns, hes⟩, ?_⟩
    rw [if_neg (by simpa using hindex), if_neg (by simpa [isNull_iff] using hnull),
      if_neg (by simpa using hid)]

end Checks

section Texts

variable {ns : List Node}

/-- Nodes named by texts are named differently exactly if their texts are. -/
theorem areDistinct_iff_nodup (hns : ∀ n ∈ ns, ∃ k, n.id = .str k) :
    AreDistinct ns ↔ (ns.map Node.id).Nodup := by
  have halike : ∀ m ∈ ns, ∀ n ∈ ns, n.id.alike m.id = false ↔ m.id ≠ n.id := by
    intro m hm n hn
    obtain ⟨k, hk⟩ := hns m hm
    obtain ⟨l, hl⟩ := hns n hn
    simp [hk, hl, eq_comm]
  have hpairwise : ns.Pairwise (fun m n => n.id.alike m.id = false) ↔ (ns.map Node.id).Nodup := by
    rw [List.Nodup, List.pairwise_map]
    exact List.Pairwise.iff_of_mem fun hm hn => halike _ hm _ hn
  constructor
  · exact fun h => hpairwise.mp h.distinct
  · refine fun h => ⟨fun n hn => ?_, hpairwise.mpr h⟩
    obtain ⟨k, hk⟩ := hns n hn
    rw [hk]
    rfl

theorem isEnd_str_iff {s : String} : IsEnd ns (.str s) ↔ .str s ∈ ns.map Node.id := by
  have husable : Name.isUsable (.str s) = true := rfl
  rw [IsEnd, Json.among, List.any_eq_true]
  constructor
  · rintro ⟨-, x, hx, halike⟩
    rwa [Json.alike_str_left.mp halike] at hx
  · exact fun h => ⟨husable, .str s, h, by simp⟩

end Texts

end PolicyGraph
end Eligibility
