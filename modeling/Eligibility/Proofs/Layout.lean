import Eligibility.Proofs.Lookup
import Eligibility.Proofs.Planning
/-!
# The nodes of compiled graphs

**Keys.**  The text of a node says what kind of thing it stands for, and after that
the name of the thing: keys of different kinds differ, and keys of one kind are as
different as the names.

**Duplicates.**  Of the nodes with one key a graph keeps the first.  In the layout of a
sound plan all nodes of one policy or one rule are the same, so that it does not matter
which one that is.

**Results.**
* `mem_layout`: what is laid out.
* `exists_mem_firsts`: the nodes that a graph keeps.
* `eq_policyNode`, `eq_externalNode`, `eq_conditionNode`: the nodes with the key of a policy
  or a rule.
-/

namespace Eligibility

namespace Node

section Keys

@[simp] theorem policyKey_inj {a b : String} : policyKey a = policyKey b ↔ a = b := by
  simp [policyKey]

@[simp] theorem clauseKey_inj {a b : String} : clauseKey a = clauseKey b ↔ a = b := by
  simp [clauseKey]

@[simp] theorem conditionKey_inj {a b : String} : conditionKey a = conditionKey b ↔ a = b := by
  simp [conditionKey]

/-- The kind that a key speaks of. -/
def keyKind : NodeKind → String
  | .policy => "policy:"
  | .clause => "clause:"
  | .condition => "condition:"
  | .entity => "entity:"
  | .threshold => "threshold:"

theorem keyKind_append_ne {j k : NodeKind} (h : j ≠ k) (a b : String) :
    keyKind j ++ a ≠ keyKind k ++ b := by
  intro e
  have e := congrArg String.toList e
  cases j <;> cases k <;> first | exact h rfl | simp [keyKind] at e

theorem thresholdKey_eq (s : String) (o : Operator) (x : Number) :
    thresholdKey s o x =
      keyKind .threshold ++ (s ++ ":" ++ o.name ++ ":" ++ String.ofList x.brief) := by
  simp [thresholdKey, keyKind, String.append_assoc]

@[simp] theorem policyKey_ne_conditionKey (a b : String) : policyKey a ≠ conditionKey b :=
  keyKind_append_ne (j := .policy) (k := .condition) (by decide) a b

@[simp] theorem policyKey_ne_clauseKey (a b : String) : policyKey a ≠ clauseKey b :=
  keyKind_append_ne (j := .policy) (k := .clause) (by decide) a b

@[simp] theorem conditionKey_ne_policyKey (a b : String) : conditionKey a ≠ policyKey b :=
  (policyKey_ne_conditionKey b a).symm

@[simp] theorem conditionKey_ne_clauseKey (a b : String) : conditionKey a ≠ clauseKey b :=
  keyKind_append_ne (j := .condition) (k := .clause) (by decide) a b

@[simp] theorem clauseKey_ne_policyKey (a b : String) : clauseKey a ≠ policyKey b :=
  (policyKey_ne_clauseKey b a).symm

@[simp] theorem clauseKey_ne_conditionKey (a b : String) : clauseKey a ≠ conditionKey b :=
  (conditionKey_ne_clauseKey b a).symm

@[simp] theorem entityKey_ne_policyKey (a b : String) : entityKey a ≠ policyKey b :=
  keyKind_append_ne (j := .entity) (k := .policy) (by decide) a b

@[simp] theorem entityKey_ne_conditionKey (a b : String) : entityKey a ≠ conditionKey b :=
  keyKind_append_ne (j := .entity) (k := .condition) (by decide) a b

@[simp] theorem entityKey_ne_clauseKey (a b : String) : entityKey a ≠ clauseKey b :=
  keyKind_append_ne (j := .entity) (k := .clause) (by decide) a b

@[simp] theorem thresholdKey_ne_policyKey (s : String) (o : Operator) (x : Number) (b : String) :
    thresholdKey s o x ≠ policyKey b := by
  rw [thresholdKey_eq]
  exact keyKind_append_ne (j := .threshold) (k := .policy) (by decide) _ b

@[simp] theorem thresholdKey_ne_conditionKey (s : String) (o : Operator) (x : Number)
    (b : String) : thresholdKey s o x ≠ conditionKey b := by
  rw [thresholdKey_eq]
  exact keyKind_append_ne (j := .threshold) (k := .condition) (by decide) _ b

@[simp] theorem thresholdKey_ne_clauseKey (s : String) (o : Operator) (x : Number) (b : String) :
    thresholdKey s o x ≠ clauseKey b := by
  rw [thresholdKey_eq]
  exact keyKind_append_ne (j := .threshold) (k := .clause) (by decide) _ b

@[simp] theorem policyId_str (s : String) : policyId (.str s) = .str (policyKey s) := by
  simp [policyId]

end Keys

section Firsts

theorem mem_of_mem_firsts {seen : List Name} {ns : List Node} {n : Node}
    (h : n ∈ firsts seen ns) : n ∈ ns := by
  induction ns generalizing seen with
  | nil => simp [firsts] at h
  | cons m r ih =>
      unfold firsts at h
      split at h
      · exact List.mem_cons_of_mem _ (ih h)
      · rcases List.mem_cons.mp h with rfl | h
        · simp
        · exact List.mem_cons_of_mem _ (ih h)

/-- For every text there is a first node, unless the text was seen before. -/
theorem exists_mem_firsts {seen : List Name} {ns : List Node} {n : Node} {k : String}
    (hn : n ∈ ns) (hk : n.id = .str k) (hseen : ∀ m ∈ seen, m ≠ .str k) :
    ∃ m ∈ firsts seen ns, m.id = .str k := by
  induction ns generalizing seen with
  | nil => simp at hn
  | cons m r ih =>
      unfold firsts
      split
      · next ha =>
        refine ih ?_ hseen
        rcases List.mem_cons.mp hn with rfl | hn
        · obtain ⟨x, hx, hxk⟩ := List.any_eq_true.mp ha
          rw [hk] at hxk
          refine absurd ?_ (hseen x hx)
          cases x <;> simp_all [Json.alike, Json.alikeScalar, Json.sameScalar]
        · exact hn
      · by_cases hm : m.id = .str k
        · exact ⟨m, by simp, hm⟩
        · rcases List.mem_cons.mp hn with rfl | hn
          · exact absurd hk hm
          · have hseen' : ∀ y ∈ m.id :: seen, y ≠ .str k := by
              intro y hy
              rcases List.mem_cons.mp hy with rfl | hy
              · exact hm
              · exact hseen y hy
            obtain ⟨x, hx, hxk⟩ := ih hn hseen'
            exact ⟨x, List.mem_cons_of_mem _ hx, hxk⟩

end Firsts

end Node

namespace Plan

section Layout

variable {cfg : Settings} {p : Plan}

mutual

theorem mem_treeNodes {policy : String} {n : Node} : ∀ r : Rule,
    n ∈ treeNodes cfg policy r ↔
      ∃ t ∈ r.walk, n = conditionNode cfg policy t.head ∨ n ∈ operandNodes t.head
  | .node h cs => by
      simp [treeNodes, Rule.walk, mem_treesNodes cs, or_assoc]

theorem mem_treesNodes {policy : String} {n : Node} : ∀ rs : List Rule,
    n ∈ treesNodes cfg policy rs ↔
      ∃ t ∈ Rule.walkAll rs, n = conditionNode cfg policy t.head ∨ n ∈ operandNodes t.head
  | [] => by simp [treesNodes, Rule.walkAll]
  | r :: rs => by
      simp [treesNodes, Rule.walkAll, mem_treeNodes r, mem_treesNodes rs, or_and_right, exists_or]

end

/-- What is laid out: policies, clauses, mentioned policies, and rules with their operands. -/
theorem mem_layout {n : Node} : n ∈ p.layout cfg ↔
    (∃ d ∈ p.documents, n = policyNode cfg d (p.rootsOf d.policy)) ∨
    (∃ d ∈ p.documents, ∃ c ∈ d.clauses, n = clauseNode d.policy c) ∨
    (∃ d ∈ p.documents, ∃ t ∈ p.undeclared d, n = externalNode t) ∨
    (∃ q ∈ p.placed, n = conditionNode cfg q.1 q.2.head ∨ n ∈ operandNodes q.2.head) := by
  simp only [layout, List.mem_append, List.mem_flatMap, List.mem_cons, List.mem_map,
    mem_treeNodes, placed, Rule.mem_walkAll]
  constructor
  · rintro ((⟨d, hd, rfl | ⟨c, hc, rfl⟩⟩ | ⟨d, hd, t, ht, rfl⟩) | ⟨d, hd, r, hr, t, ht, hn⟩)
    · exact .inl ⟨d, hd, rfl⟩
    · exact .inr (.inl ⟨d, hd, c, hc, rfl⟩)
    · exact .inr (.inr (.inl ⟨d, hd, t, ht, rfl⟩))
    · exact .inr (.inr (.inr ⟨(d.policy, t), ⟨d, hd, t, ⟨r, hr, ht⟩, rfl⟩, hn⟩))
  · rintro (⟨d, hd, rfl⟩ | ⟨d, hd, c, hc, rfl⟩ | ⟨d, hd, t, ht, rfl⟩ |
      ⟨q, ⟨d, hd, t, ⟨r, hr, ht⟩, rfl⟩, hn⟩)
    · exact .inl (.inl ⟨d, hd, .inl rfl⟩)
    · exact .inl (.inl ⟨d, hd, .inr ⟨c, hc, rfl⟩⟩)
    · exact .inl (.inr ⟨d, hd, t, ht, rfl⟩)
    · exact .inr ⟨d, hd, r, hr, t, ht, hn⟩

theorem mem_operandNodes {h : Head} {n : Node} (hn : n ∈ operandNodes h) :
    (∃ x, h.value = some (.number x) ∧ n = thresholdNode h x) ∨ ∃ s, n = entityNode s := by
  unfold operandNodes at hn
  split at hn
  · next x hx => exact .inl ⟨x, hx, by simpa using hn⟩
  · obtain ⟨s, -, rfl⟩ := List.mem_map.mp hn
    exact .inr ⟨s, rfl⟩
  · simp at hn

/-- The keys of operands are not those of policies or rules. -/
theorem id_ne_of_mem_operandNodes {h : Head} {n : Node} (hn : n ∈ operandNodes h) (s : String) :
    n.id ≠ .str (Node.policyKey s) ∧ n.id ≠ .str (Node.conditionKey s) := by
  rcases mem_operandNodes hn with ⟨x, -, rfl⟩ | ⟨t, rfl⟩
  · simp [thresholdNode]
  · simp [entityNode]

theorem mem_undeclared {d : Document} {t : String} :
    t ∈ p.undeclared d ↔
      (t ∈ d.prerequisites ∨ t ∈ d.appliesTo) ∧ t ∉ p.documents.map Document.policy := by
  simp [undeclared, or_and_right]

end Layout

section Lookups

variable {cfg : Settings} {p : Plan}

/-- Nodes of a policy's key are the policy's own node. -/
theorem eq_policyNode (hp : p.IsSound) {d : Document} (hd : d ∈ p.documents) {n : Node}
    (hn : n ∈ p.layout cfg) (hk : n.id = .str (Node.policyKey d.policy)) :
    n = policyNode cfg d (p.rootsOf d.policy) := by
  rcases mem_layout.mp hn with
    ⟨e, he, rfl⟩ | ⟨e, -, c, -, rfl⟩ | ⟨e, -, t, ht, rfl⟩ | ⟨q, -, rfl | ho⟩
  · have : e = d := document_eq hp he hd (by simpa [policyNode] using hk)
    rw [this]
  · simp [clauseNode] at hk
  · have hk : t = d.policy := by simpa [externalNode] using hk
    exact absurd (List.mem_map.mpr ⟨d, hd, hk.symm⟩) (mem_undeclared.mp ht).2
  · simp [conditionNode] at hk
  · exact absurd hk (id_ne_of_mem_operandNodes ho _).1

/-- Nodes of the key of a mentioned policy stand for it. -/
theorem eq_externalNode {t : String} (ht : t ∉ p.documents.map Document.policy) {n : Node}
    (hn : n ∈ p.layout cfg) (hk : n.id = .str (Node.policyKey t)) : n = externalNode t := by
  rcases mem_layout.mp hn with
    ⟨e, he, rfl⟩ | ⟨e, -, c, -, rfl⟩ | ⟨e, -, u, hu, rfl⟩ | ⟨q, -, rfl | ho⟩
  · have hk : e.policy = t := by simpa [policyNode] using hk
    exact absurd (List.mem_map.mpr ⟨e, he, hk⟩) ht
  · simp [clauseNode] at hk
  · have hk : u = t := by simpa [externalNode] using hk
    rw [hk]
  · simp [conditionNode] at hk
  · exact absurd hk (id_ne_of_mem_operandNodes ho _).1

/-- Nodes of a rule's key are the rule's own node. -/
theorem eq_conditionNode (hp : p.IsSound) {q : String × Rule} (hq : q ∈ p.placed) {n : Node}
    (hn : n ∈ p.layout cfg) (hk : n.id = .str (Node.conditionKey q.2.id)) :
    n = conditionNode cfg q.1 q.2.head := by
  rcases mem_layout.mp hn with
    ⟨e, he, rfl⟩ | ⟨e, -, c, -, rfl⟩ | ⟨e, -, u, hu, rfl⟩ | ⟨x, hx, rfl | ho⟩
  · simp [policyNode] at hk
  · simp [clauseNode] at hk
  · simp [externalNode] at hk
  · have : x = q := eq_of_placed hp hx hq (by simpa [conditionNode, Rule.id] using hk)
    rw [this]
  · exact absurd hk (id_ne_of_mem_operandNodes ho _).2

end Lookups

end Plan
end Eligibility
