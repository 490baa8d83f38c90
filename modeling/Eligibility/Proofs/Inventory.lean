import Eligibility.Proofs.Building
import Eligibility.Proofs.Items
import Eligibility.Proofs.ReadRules
import Eligibility.Proofs.Refinement
/-!
# The inventory of a compiled graph

**Items.**  A rule set speaks of policies, clauses and rules, and of the entities and
thresholds that its rules compare with.  Whatever is laid out stands for one of these, and each
of them is laid out.

**Kinds.**  Of the nodes with one identifier a graph keeps the first.  For conditions, declared
policies and clauses no two were laid out with one identifier, so that the graph has them all,
in the order of the layout.

**Results.**
* `exists_item`, `key_mem_nodes`: the nodes of a plan are the items of its rule set.
* `filter_layout_condition`, `filter_layout_policy`, `filter_layout_clause`: layouts by kind.
* `nodesOfKind_condition`, `policies_eq_map`, `nodesOfKind_clause`: compiled graphs by kind.
-/

namespace Eligibility

/-- Whether a rule set speaks of an item. -/
def RuleSet.Mentions (s : RuleSet) : Item → Prop
  | .policy a => a ∈ s.policies ∨ ∃ d ∈ s.documents, a ∈ d.prerequisites ∨ a ∈ d.appliesTo
  | .clause c => ∃ a, s.holder? c = some a
  | .rule id => ∃ h ∈ s.heads, h.id = id
  | .entity name => ∃ h ∈ s.heads, ∃ v, h.value = some v ∧ name ∈ Plan.namesOf v
  | .threshold subject o q => ∃ h ∈ s.heads, h.subject = subject ∧ h.operator = o ∧
      ∃ x, h.value = some (.number x) ∧ x.value? = some q

section Layout

variable {cfg : Settings} {p : Plan}

/-- Filtering before or after repeated nodes are dropped is the same, where the nodes that pass
differ from each other and from the rest. -/
theorem Node.filter_firsts {P : Node → Bool} {ns : List Node}
    (htexts : ∀ n ∈ ns, ∃ k, n.id = .str k) (hnodup : ((ns.filter P).map Node.id).Nodup)
    (hrest : ∀ n ∈ ns, ∀ m ∈ ns, P n = true → P m = false → n.id ≠ m.id) {seen : List Name}
    (hseen : ∀ n ∈ ns, P n = true → n.id ∉ seen) : (firsts seen ns).filter P = ns.filter P := by
  induction ns generalizing seen with
  | nil => rfl
  | cons m r ih =>
      have hr : ∀ {n}, n ∈ r → n ∈ m :: r := fun hn => List.mem_cons_of_mem m hn
      have htexts' : ∀ n ∈ r, ∃ k, n.id = .str k := fun n hn => htexts n (hr hn)
      have hrest' : ∀ n ∈ r, ∀ x ∈ r, P n = true → P x = false → n.id ≠ x.id :=
        fun n hn x hx => hrest n (hr hn) x (hr hx)
      by_cases hm : P m = true
      · rw [List.filter_cons_of_pos hm, List.map_cons, List.nodup_cons] at hnodup
        have hamong : ¬ m.id.among seen = true := by
          obtain ⟨k, hk⟩ := htexts m List.mem_cons_self
          intro hamong
          obtain ⟨x, hx, hkx⟩ := List.any_eq_true.mp hamong
          rw [hk] at hkx
          rw [Json.alike_str_left.mp hkx, ← hk] at hx
          exact hseen m List.mem_cons_self hm hx
        have hlater : ∀ n ∈ r, P n = true → n.id ∉ m.id :: seen := by
          intro n hn hP hmem
          rcases List.mem_cons.mp hmem with he | hmem
          · exact hnodup.1 (he ▸ List.mem_map_of_mem (List.mem_filter.mpr ⟨hn, hP⟩))
          · exact hseen n (hr hn) hP hmem
        rw [firsts, if_neg hamong, List.filter_cons_of_pos hm, List.filter_cons_of_pos hm,
          ih htexts' hnodup.2 hrest' hlater]
      · rw [List.filter_cons_of_neg hm] at hnodup ⊢
        rw [firsts]
        split_ifs with hamong
        · exact ih htexts' hnodup hrest' fun n hn => hseen n (hr hn)
        · have hlater : ∀ n ∈ r, P n = true → n.id ∉ m.id :: seen := by
            intro n hn hP hmem
            rcases List.mem_cons.mp hmem with he | hmem
            · exact hrest n (hr hn) m List.mem_cons_self hP (by simpa using hm) he
            · exact hseen n (hr hn) hP hmem
          rw [List.filter_cons_of_neg hm, ih htexts' hnodup hrest' hlater]

namespace Plan

theorem filter_nodes {P : Node → Bool} (hnodup : (((p.layout cfg).filter P).map Node.id).Nodup)
    (hrest : ∀ n ∈ p.layout cfg, ∀ m ∈ p.layout cfg, P n = true → P m = false → n.id ≠ m.id) :
    (p.nodes cfg).filter P = (p.layout cfg).filter P :=
  Node.filter_firsts (fun _ => PolicyGraph.exists_id_of_mem_layout) hnodup hrest (by simp)

mutual

/-- The conditions of a tree are its rules in the order of a walk. -/
theorem filter_treeNodes {policy : String} : ∀ r : Rule,
    (treeNodes cfg policy r).filter Node.isCondition =
      r.walk.map fun t => conditionNode cfg policy t.head
  | .node h cs => by
      have hoperands : (operandNodes h).filter Node.isCondition = [] := by
        refine List.filter_eq_nil_iff.mpr fun n hn => ?_
        rcases mem_operandNodes hn with ⟨x, -, rfl⟩ | ⟨s, rfl⟩
        · simp [Node.isCondition, thresholdNode]
        · simp [Node.isCondition, entityNode]
      have hself : (conditionNode cfg policy h).isCondition = true := rfl
      rw [treeNodes, List.filter_cons_of_pos hself, List.filter_append, hoperands,
        filter_treesNodes cs, Rule.walk, List.map_cons, List.nil_append, Rule.head_node]

theorem filter_treesNodes {policy : String} : ∀ rs : List Rule,
    (treesNodes cfg policy rs).filter Node.isCondition =
      (Rule.walkAll rs).map fun t => conditionNode cfg policy t.head
  | [] => by rw [treesNodes, Rule.walkAll]; rfl
  | r :: rs => by
      rw [treesNodes, List.filter_append, filter_treeNodes r, filter_treesNodes rs, Rule.walkAll,
        List.map_append]

end

/-- The nodes of operands are thresholds and entities. -/
theorem mem_operandNodes_iff {h : Head} {n : Node} : n ∈ operandNodes h ↔
    (∃ x, h.value = some (.number x) ∧ n = thresholdNode h x) ∨
      ∃ v, h.value = some v ∧ ∃ name ∈ namesOf v, n = entityNode name := by
  unfold operandNodes
  cases hv : h.value with
  | none => simp
  | some v =>
      cases v with
      | number x => simp [namesOf]
      | _ => simp [eq_comm]

/-- The nodes of rules are neither policies nor clauses. -/
theorem kind_of_mem_treeNodes {policy : String} {r : Rule} {n : Node}
    (hn : n ∈ treeNodes cfg policy r) : n.kind ≠ .policy ∧ n.kind ≠ .clause := by
  obtain ⟨t, -, rfl | ho⟩ := (mem_treeNodes r).mp hn
  · simp [conditionNode]
  · rcases mem_operandNodes ho with ⟨x, -, rfl⟩ | ⟨s, rfl⟩
    · simp [thresholdNode]
    · simp [entityNode]

/-- A filter over a layout that drops the mentioned policies goes through the documents twice. -/
theorem filter_layout {P : Node → Bool} (hmention : ∀ t, P (externalNode t) = false) :
    (p.layout cfg).filter P =
      (p.documents.flatMap fun d => (policyNode cfg d (p.rootsOf d.policy) ::
        d.clauses.map (clauseNode d.policy)).filter P) ++
      p.documents.flatMap fun d =>
        (p.rootsOf d.policy).flatMap fun r => (treeNodes cfg d.policy r).filter P := by
  have hmentioned :
      (p.documents.flatMap fun d => (p.undeclared d).map externalNode).filter P = [] := by
    refine List.filter_eq_nil_iff.mpr fun n hn => ?_
    obtain ⟨d, -, hn⟩ := List.mem_flatMap.mp hn
    obtain ⟨t, -, rfl⟩ := List.mem_map.mp hn
    simp [hmention t]
  rw [layout, List.filter_append, List.filter_append, hmentioned, List.append_nil,
    List.filter_flatMap, List.filter_flatMap]
  simp only [List.filter_flatMap]

theorem flatMap_treeNodes_eq_nil {P : Node → Bool}
    (h : ∀ n, n.kind ≠ .policy → n.kind ≠ .clause → P n = false) :
    (p.documents.flatMap fun d =>
      (p.rootsOf d.policy).flatMap fun r => (treeNodes cfg d.policy r).filter P) = [] := by
  refine List.flatMap_eq_nil_iff.mpr fun d _ => List.flatMap_eq_nil_iff.mpr fun r _ => ?_
  refine List.filter_eq_nil_iff.mpr fun n hn => ?_
  obtain ⟨hpolicy, hclause⟩ := kind_of_mem_treeNodes hn
  simp [h n hpolicy hclause]

/-- The conditions of a layout are the rules that are placed. -/
theorem filter_layout_condition : (p.layout cfg).filter Node.isCondition =
    p.placed.map fun q => conditionNode cfg q.1 q.2.head := by
  have hdocuments : (p.documents.flatMap fun d => (policyNode cfg d (p.rootsOf d.policy) ::
      d.clauses.map (clauseNode d.policy)).filter Node.isCondition) = [] := by
    refine List.flatMap_eq_nil_iff.mpr fun d _ => List.filter_eq_nil_iff.mpr fun n hn => ?_
    rcases List.mem_cons.mp hn with rfl | hn
    · simp [Node.isCondition, policyNode]
    · obtain ⟨c, -, rfl⟩ := List.mem_map.mp hn
      simp [Node.isCondition, clauseNode]
  rw [filter_layout (fun t => rfl), hdocuments, List.nil_append, placed, List.map_flatMap]
  refine List.flatMap_congr fun d _ => ?_
  rw [Rule.walkAll_eq_flatMap, List.map_flatMap, List.map_flatMap]
  exact List.flatMap_congr fun r _ => by simp [filter_treeNodes, Function.comp_def]

/-- Whether a node is that of a declared policy. -/
def isDeclaration (n : Node) : Bool := decide (n.kind = .policy) && !n.isExternal

/-- The declared policies of a layout are those of the documents. -/
theorem filter_layout_policy : (p.layout cfg).filter isDeclaration =
    p.documents.map fun d => policyNode cfg d (p.rootsOf d.policy) := by
  rw [filter_layout (fun t => by simp [isDeclaration]),
    flatMap_treeNodes_eq_nil (fun n hpolicy _ => by simp [isDeclaration, hpolicy]),
    List.append_nil, ← List.flatMap_pure_eq_map]
  refine List.flatMap_congr fun d _ => ?_
  have hself : isDeclaration (policyNode cfg d (p.rootsOf d.policy)) = true := by
    rw [isDeclaration, policyNode_isExternal]
    rfl
  rw [List.filter_cons_of_pos hself, List.filter_eq_nil_iff.mpr]
  · rfl
  · intro n hn
    obtain ⟨c, -, rfl⟩ := List.mem_map.mp hn
    simp [isDeclaration, clauseNode]

/-- The clauses of a layout are those of the documents. -/
theorem filter_layout_clause : (p.layout cfg).filter (fun n => decide (n.kind = .clause)) =
    p.documents.flatMap fun d => d.clauses.map (clauseNode d.policy) := by
  rw [filter_layout (fun t => rfl),
    flatMap_treeNodes_eq_nil (fun n _ hclause => by simp [hclause]), List.append_nil]
  refine List.flatMap_congr fun d _ => ?_
  rw [List.filter_cons_of_neg (by simp [policyNode]), List.filter_eq_self]
  intro n hn
  obtain ⟨c, -, rfl⟩ := List.mem_map.mp hn
  simp [clauseNode]

end Plan

end Layout

section Items

variable {cfg : Settings} {s : RuleSet} {p : Plan}

/-- A document that mentions a policy is one of the rule set. -/
theorem Plan.document_of_mention (h : s.plan = .ok p) {d : Document} (hd : d ∈ p.documents)
    {t : String} (ht : t ∈ d.prerequisites ∨ t ∈ d.appliesTo) : d ∈ s.documents := by
  have hmode := (RuleSet.plan_spec h).2
  split_ifs at hmode with he
  · rw [hmode.1] at hd
    obtain ⟨hprerequisites, happliesTo⟩ := RuleSet.mentions_of_declare hd
    simp [hprerequisites, happliesTo] at ht
  · rwa [hmode.1] at hd

theorem Plan.head_of_placed (hs : s.IsAccepted) (h : s.plan = .ok p) {q : String × Rule}
    (hq : q ∈ p.placed) : q.2.head ∈ s.heads :=
  RuleSet.head_mem_heads ((RuleSet.placed_perm hs h).mem_iff.mp (List.mem_map_of_mem hq))

/-- A number is written as its value is. -/
theorem Number.brief_of_value? {x : Number} {q : Rat} (h : x.value? = some q) :
    x.brief = (Number.finite q).brief := by
  have hvalue : (Number.finite q).value? = some q := rfl
  cases x with
  | finite r => cases h; rfl
  | negZero => cases h; decide +kernel
  | _ => cases h

/-- A number that an accepted rule compares with has a value. -/
theorem RuleSet.exists_value (hs : s.IsAccepted) {k : Head} (hk : k ∈ s.heads) {x : Number}
    (hx : k.value = some (.number x)) : ∃ q, x.value? = some q := by
  rw [heads, Rule.headsOf_eq_map_walkAll] at hk
  obtain ⟨r, hr, rfl⟩ := List.mem_map.mp hk
  have hsound := hs.sound r hr
  cases hl : r.head.operator.isLogical with
  | true => simp [(hsound.logical hl).1] at hx
  | false =>
      obtain ⟨-, v, hv, -, hfinite⟩ := hsound.comparison hl
      obtain rfl : v = .number x := Option.some.inj (hv.symm.trans hx)
      exact Option.isSome_iff_exists.mp (hfinite x rfl)

/-- What is laid out stands for an item that the rule set speaks of. -/
theorem Plan.exists_item (hs : s.IsAccepted) (h : s.plan = .ok p) {n : Node}
    (hn : n ∈ p.layout cfg) : ∃ i, s.Mentions i ∧ n.id = .str i.key ∧ n.kind = i.kind := by
  rcases mem_layout.mp hn with
    ⟨d, hd, rfl⟩ | ⟨d, hd, c, hc, rfl⟩ | ⟨d, hd, t, ht, rfl⟩ | ⟨q, hq, rfl | ho⟩
  · have hdeclared : d.policy ∈ s.policies := policies_eq h ▸ List.mem_map_of_mem hd
    exact ⟨.policy d.policy, .inl hdeclared, rfl, rfl⟩
  · have hheld : s.holder? c.id = some d.policy := (RuleSet.holder?_eq_some_iff hs h).mpr
      (RuleSet.mem_ownedClauses.mpr ⟨d, hd, rfl, Document.lists_iff.mpr (List.mem_map_of_mem hc)⟩)
    exact ⟨.clause c.id, ⟨d.policy, hheld⟩, rfl, rfl⟩
  · have hmention := (mem_undeclared.mp ht).1
    exact ⟨.policy t, .inr ⟨d, document_of_mention h hd hmention, hmention⟩, rfl, rfl⟩
  · exact ⟨.rule q.2.id, ⟨q.2.head, head_of_placed hs h hq, rfl⟩, rfl, rfl⟩
  · have hhead := head_of_placed hs h hq
    rcases mem_operandNodes_iff.mp ho with ⟨x, hx, rfl⟩ | ⟨v, hv, name, hname, rfl⟩
    · obtain ⟨y, hy⟩ := RuleSet.exists_value hs hhead hx
      refine ⟨.threshold q.2.head.subject q.2.head.operator y,
        ⟨q.2.head, hhead, rfl, rfl, x, hx, hy⟩, ?_, rfl⟩
      simp [thresholdNode, Item.key, Node.thresholdKey, Number.brief_of_value? hy]
    · exact ⟨.entity name, ⟨q.2.head, hhead, v, hv, hname⟩, rfl, rfl⟩

end Items

section Kinds

variable {cfg : Settings} {s : RuleSet} {p : Plan} {g : PolicyGraph}

namespace PolicyGraph

/-- Nodes of different kinds have different identifiers. -/
theorem kind_eq_of_id (hs : s.IsAccepted) (h : s.plan = .ok p) {m n : Node}
    (hm : m ∈ p.layout cfg) (hn : n ∈ p.layout cfg) (hid : m.id = n.id) : m.kind = n.kind := by
  obtain ⟨i, -, hi, hik⟩ := Plan.exists_item hs h hm
  obtain ⟨j, -, hj, hjk⟩ := Plan.exists_item hs h hn
  rw [hik, hjk]
  exact Item.kind_eq_of_key (Json.str.inj (hi.symm.trans (hid.trans hj)))

/-- The conditions of a compiled graph are the rules that are placed. -/
theorem IsDrawnFrom.nodesOfKind_condition (h : g.IsDrawnFrom cfg p) (hs : s.IsAccepted)
    (hp : s.plan = .ok p) : g.nodesOfKind .condition =
      p.placed.map fun q => Plan.conditionNode cfg q.1 q.2.head := by
  rw [← Plan.filter_layout_condition, nodesOfKind, h.nodes]
  refine Plan.filter_nodes ?_ fun n hn m hm hkind hother hid => ?_
  · change (((p.layout cfg).filter Node.isCondition).map Node.id).Nodup
    have hids := h.sound.ids
    rw [List.Nodup, List.pairwise_map] at hids
    rw [Plan.filter_layout_condition, List.map_map, List.Nodup, List.pairwise_map]
    exact hids.imp fun hne he => hne (by simpa [Plan.conditionNode, Rule.id] using he)
  · rw [decide_eq_true_eq] at hkind
    rw [decide_eq_false_iff_not] at hother
    exact hother ((kind_eq_of_id hs hp hn hm hid) ▸ hkind)

/-- The declared policies of a compiled graph are those of the documents, in their order. -/
theorem IsDrawnFrom.policies_eq_map (h : g.IsDrawnFrom cfg p) : g.policies false =
    p.documents.map fun d => Plan.policyNode cfg d (p.rootsOf d.policy) := by
  have hdeclared : g.policies false = (p.nodes cfg).filter Plan.isDeclaration := by
    rw [policies, nodesOfKind, List.filter_filter, h.nodes]
    refine List.filter_congr fun n _ => ?_
    rw [Plan.isDeclaration, Bool.false_or, Bool.and_comm]
  rw [hdeclared, ← Plan.filter_layout_policy]
  refine Plan.filter_nodes ?_ fun n hn m hm hpolicy hother hid => ?_
  · have hids := h.sound.policies
    rw [List.Nodup, List.pairwise_map] at hids
    rw [Plan.filter_layout_policy, List.map_map, List.Nodup, List.pairwise_map]
    exact hids.imp fun hne he => hne (by simpa [Plan.policyNode] using he)
  · have hmem := List.mem_filter.mpr ⟨hn, hpolicy⟩
    rw [Plan.filter_layout_policy] at hmem
    obtain ⟨d, hd, rfl⟩ := List.mem_map.mp hmem
    -- the only node with the identifier of a declared policy is its own
    rw [Plan.eq_policyNode h.sound hd hm hid.symm, hpolicy] at hother
    cases hother

/-- The clauses of a compiled graph are those of the documents. -/
theorem IsDrawnFrom.nodesOfKind_clause (h : g.IsDrawnFrom cfg p) (hs : s.IsAccepted)
    (hp : s.plan = .ok p) : g.nodesOfKind .clause =
      p.documents.flatMap fun d => d.clauses.map (Plan.clauseNode d.policy) := by
  rw [← Plan.filter_layout_clause, nodesOfKind, h.nodes]
  refine Plan.filter_nodes ?_ fun n hn m hm hkind hother hid => ?_
  · have hclauses := RuleSet.nodup_ownedClauses hs hp
    have hids : ((p.layout cfg).filter fun n => decide (n.kind = .clause)).map Node.id =
        ((RuleSet.ownedClauses p.documents).map (·.1)).map fun c => .str (Node.clauseKey c) := by
      rw [Plan.filter_layout_clause]
      simp [RuleSet.ownedClauses, List.map_flatMap, Function.comp_def, Plan.clauseNode]
    rw [hids]
    exact (List.nodup_map_iff fun a b hab => by simpa using hab).mpr hclauses
  · rw [decide_eq_true_eq] at hkind
    rw [decide_eq_false_iff_not] at hother
    exact hother ((kind_eq_of_id hs hp hn hm hid) ▸ hkind)

end PolicyGraph

end Kinds

end Eligibility
