import Eligibility.Proofs.Building
import Eligibility.Proofs.Legibility
/-!
# The edges that leave policies

**Contents.**  A policy contains the clauses of its document, in their order, each once.

**Results.**
* `filter_contents`: the edges from a policy to its clauses.
* `IsDrawnFrom.clausesOf_eq`: the clauses of a policy.
-/

namespace Eligibility

/-- Drafts that are told apart by texts stand where the texts do. -/
theorem Draft.firsts_map {f : String → Draft} (hf : Function.Injective f) (seen xs : List String) :
    Draft.firsts (seen.map f) (xs.map f) = (RuleSet.firstTexts seen xs).map f := by
  induction xs generalizing seen with
  | nil => rfl
  | cons x xs ih =>
      rw [List.map_cons, Draft.firsts, RuleSet.firstTexts]
      by_cases hx : x ∈ seen
      · rw [if_pos hx, if_pos (List.mem_map_of_mem hx), ih seen]
      · rw [if_neg hx, if_neg (by rwa [List.mem_map_of_injective hf]), List.map_cons,
          ← ih (x :: seen), List.map_cons]

namespace Plan

variable {p : Plan} {d : Document}

/-- Whether a draft is about a clause that a node contains. -/
def isContentOf (k : String) (d : Draft) : Bool :=
  decide (d.relation = .contains) && decide (d.source = k)

/-- The draft of a clause that a policy contains. -/
def content (policy c : String) : Draft :=
  ⟨Node.policyKey policy, Node.clauseKey c, .contains, .plain⟩

/-- Below the top-level rules of policies no edge to a clause leaves a policy. -/
theorem not_isContentOf_rootDrafts {ds : List Document} {policy k : String} {rs : List Rule}
    {x : Draft} (hx : x ∈ rootDrafts ds policy 0 rs) :
    isContentOf (Node.policyKey k) x = false := by
  rcases (mem_rootDrafts _ _).mp hx with ⟨c, -, rfl⟩ | ⟨t, -, ht | ht⟩
  · simp [isContentOf]
  · unfold ownDrafts clauseDrafts operandDrafts at ht
    rw [isContentOf]
    have := Node.policyKey_ne_clauseKey
    grind
  · obtain ⟨c, -, rfl⟩ := List.mem_map.mp ht
    simp [isContentOf]

/-- The clauses of a policy, in the order of its document. -/
theorem filter_contents (hp : p.IsSound) (hd : d ∈ p.documents) :
    p.drawn.filter (isContentOf (Node.policyKey d.policy)) =
      (RuleSet.firstTexts [] (d.clauses.map Clause.id)).map (content d.policy) := by
  have nodup : p.documents.Nodup := List.Nodup.of_map _ hp.policies
  have clauses : (p.documents.flatMap fun d => d.clauses.map fun c =>
      (⟨Node.policyKey d.policy, Node.clauseKey c.id, .contains, .plain⟩ : Draft)).filter
        (isContentOf (Node.policyKey d.policy)) =
          (d.clauses.map Clause.id).map (content d.policy) := by
    rw [List.filter_flatMap, flatMap_eq_of_unique nodup hd, List.filter_eq_self.mpr,
      List.map_map]
    · rfl
    · intro x hx
      obtain ⟨c, -, rfl⟩ := List.mem_map.mp hx
      simp [isContentOf]
    · intro e he hne
      refine List.filter_eq_nil_iff.mpr fun x hx h => hne ?_
      obtain ⟨c, -, rfl⟩ := List.mem_map.mp hx
      exact document_eq hp he hd (by simpa [isContentOf] using h)
  have trees : (p.documents.flatMap fun e =>
      rootDrafts p.documents e.policy 0 (p.rootsOf e.policy)).filter
        (isContentOf (Node.policyKey d.policy)) = [] := by
    refine List.filter_eq_nil_iff.mpr fun x hx => ?_
    obtain ⟨e, -, hx⟩ := List.mem_flatMap.mp hx
    simp [not_isContentOf_rootDrafts hx]
  have mentions : (p.documents.flatMap mentionDrafts).filter
      (isContentOf (Node.policyKey d.policy)) = [] := by
    refine List.filter_eq_nil_iff.mpr fun x hx => ?_
    obtain ⟨e, -, hx⟩ := List.mem_flatMap.mp hx
    simp [isContentOf, (relation_of_mem_mentionDrafts hx).2.1]
  rw [drawn, Draft.filter_firsts _ [] (by simp), drafts, List.filter_append, List.filter_append,
    clauses, trees, mentions, List.append_nil, List.append_nil]
  refine Draft.firsts_map (fun a b h => ?_) [] _
  simpa [content] using h

end Plan

namespace PolicyGraph

variable {cfg : Settings} {g : PolicyGraph} {p : Plan} {d : Document}

/-- A clause of a document has a node, which says what some document says of the clause. -/
theorem IsDrawnFrom.exists_clauseNode (h : g.IsDrawnFrom cfg p) (hd : d ∈ p.documents) {c : String}
    (hc : d.lists c = true) : ∃ e ∈ p.documents, ∃ k ∈ e.clauses, k.id = c ∧
      g.node? (.str (Node.clauseKey c)) = some (Plan.clauseNode e.policy k) := by
  have hmem : .str (Node.clauseKey c) ∈ g.nodes.map Node.id :=
    h.nodes ▸ Plan.clause_mem_nodes hd hc
  obtain ⟨n, hn, hid⟩ := List.mem_map.mp hmem
  have hnodup : (g.nodes.map Node.id).Nodup := h.nodes ▸ Plan.nodup_nodes
  obtain ⟨e, he, k, hk, rfl⟩ := h.eq_of_clause hn (h.isLegible.clauseKey n hn c hid)
  refine ⟨e, he, k, hk, Node.clauseKey_inj.mp (Json.str.inj hid), ?_⟩
  refine node?_eq_some hn hid fun m hm hmid => ?_
  exact List.inj_on_of_nodup_map hnodup hm hn (hmid.trans hid.symm)

/-- The clauses of a policy are those of its document, each once. -/
theorem IsDrawnFrom.clausesOf_eq (h : g.IsDrawnFrom cfg p) (hd : d ∈ p.documents) :
    g.clausesOf (.str d.policy) =
      .ok ((RuleSet.firstTexts [] (d.clauses.map Clause.id)).map .str) := by
  obtain ⟨es, hes, hall⟩ := h.outEdges_forall₂ (hasNode_of_node? (h.node?_policy hd)) .contains
  rw [show (p.drawn.filter fun x => decide (x.relation = .contains) &&
      decide (x.source = Node.policyKey d.policy)) = _ from Plan.filter_contents h.sound hd,
    List.forall₂_map_left_iff] at hall
  have hnames := forall₂_filterMap (S := fun c n => n = Json.str c)
    (f := fun e => (g.targetOf? .clause e).map Node.ownClause) hall (by
      rintro c hc e ⟨n, rfl⟩
      have hlists : d.lists c = true := Document.lists_iff.mpr (Plan.mem_firstTexts.mp hc).1
      obtain ⟨e, -, k, -, rfl, hnode⟩ := h.exists_clauseNode hd hlists
      refine ⟨.str k.id, ?_, rfl⟩
      rw [targetOf?_eq_some (k := .clause) hnode rfl, Option.map_some, Plan.clauseNode_ownClause])
  rw [clausesOf, Node.policyId_str, hes, Attempt.ok_bind]
  refine congrArg Except.ok ?_
  refine List.forall₂_eq_eq_eq ▸ ?_
  rw [List.forall₂_map_right_iff]
  exact hnames.flip

end PolicyGraph
end Eligibility
