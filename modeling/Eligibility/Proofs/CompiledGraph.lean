import Mathlib.Data.List.Sort
import Eligibility.Proofs.Drawing
import Eligibility.Verdict.Evaluation
/-!
# Compiled graphs

**Origin.**  A compiled graph is drawn from the sound plan of a rule set that was
accepted: its nodes and edges are those of the plan, and the nodes say what the
documents and the heads of rules say.

**Branches.**  The edges of a rule stand in the order in which the trees were drawn,
and some may have been drawn before; sorted by position they give the children of
the rule in their order.

**Results.**
* `isDrawnFrom_of_build`: where compiled graphs come from.
* `node?_policy`, `node?_external`, `node?_condition`: the nodes of policies and rules.
* `ruleChildren_condition`, `policyRoots_policy`: the branches of rules and policies.
* `requiredPolicies_policy`, `clausesOf_policy`: what policies require and contain.
-/

namespace Eligibility

namespace Plan

section Readings

variable (cfg : Settings) (policy : String) (h : Head)

@[simp] theorem conditionNode_operator? :
    (conditionNode cfg policy h).operator? = .ok (some h.operator) := by
  simp [Node.operator?, Node.get, Node.property?, conditionNode, Entries.get?_ofFields,
    List.lookup_cons, Property.toJson, Operator.ofName?_name]

@[simp] theorem conditionNode_value? : (conditionNode cfg policy h).value? = h.value := by
  cases hv : h.value <;>
    simp [Node.value?, Node.property?, conditionNode, Entries.get?_ofFields, List.lookup_cons, hv]

@[simp] theorem conditionNode_subject : (conditionNode cfg policy h).subject = .str h.subject := by
  simp [Node.subject, Node.get, Node.property?, conditionNode, Entries.get?_ofFields,
    List.lookup_cons, Property.toJson]

@[simp] theorem conditionNode_rule : (conditionNode cfg policy h).rule = .str h.id := by
  simp [Node.rule, Node.get, Node.property?, conditionNode, Entries.get?_ofFields, Property.toJson]

@[simp] theorem conditionNode_citedClause :
    (conditionNode cfg policy h).citedClause = .str h.clause := by
  simp [Node.citedClause, Node.get, Node.property?, conditionNode, Entries.get?_ofFields,
    List.lookup_cons, Property.toJson]

@[simp] theorem conditionNode_policy : (conditionNode cfg policy h).policy = .str policy := by
  simp [Node.policy, Node.get, Node.property?, conditionNode, Entries.get?_ofFields,
    List.lookup_cons, Property.toJson]

@[simp] theorem conditionNode_isLeaf :
    (conditionNode cfg policy h).isLeaf = !h.operator.isLogical := by
  simp [Node.isLeaf, Node.isCondition, Node.get, Node.property?, conditionNode,
    Entries.get?_ofFields, List.lookup_cons, Property.toJson, Json.truthy]

variable (d : Document) (roots : List Rule)

@[simp] theorem policyNode_policy : (policyNode cfg d roots).policy = .str d.policy := by
  simp [Node.policy, Node.get, Node.property?, policyNode, Entries.get?_ofFields, Property.toJson]

@[simp] theorem policyNode_isExternal : (policyNode cfg d roots).isExternal = false := by
  simp [Node.isExternal, Node.get, Node.property?, policyNode, Entries.get?_ofFields,
    List.lookup_cons, Property.toJson, Json.truthy]

@[simp] theorem externalNode_policy : (externalNode policy).policy = .str policy := by
  simp [Node.policy, Node.get, Node.property?, externalNode, Entries.get?_ofFields, Property.toJson]

@[simp] theorem externalNode_isExternal : (externalNode policy).isExternal = true := by
  simp [Node.isExternal, Node.get, Node.property?, externalNode, Entries.get?_ofFields,
    List.lookup_cons, Property.toJson, Json.truthy]

@[simp] theorem clauseNode_ownClause (c : Clause) :
    (clauseNode policy c).ownClause = .str c.id := by
  simp [Node.ownClause, Node.get, Node.property?, clauseNode, Entries.get?_ofFields,
    Property.toJson]

end Readings

end Plan

namespace PolicyGraph

/-- A graph with the nodes and the edges of a sound plan. -/
structure IsDrawnFrom (g : PolicyGraph) (cfg : Settings) (p : Plan) : Prop where
  sound : p.IsSound
  nodes : g.nodes = p.nodes cfg
  edges : g.edges = p.edges

/-- A graph that was built from a rule set that validation accepts. -/
def IsCompiled (cfg : Settings) (g : PolicyGraph) : Prop :=
  ∃ s : RuleSet, s.validate cfg = .ok s ∧ (s.build cfg).outcome = .ok g

section Origin

variable {cfg : Settings} {g : PolicyGraph}

theorem make_eq_ok {ns : List Node} {es : List Edge} {m : Entries Json}
    (h : make ns es m = .ok g) : g.nodes = ns ∧ g.edges = es ∧ fault? ns es = none := by
  unfold make at h
  split at h
  · cases h
  next hf => cases h; exact ⟨rfl, rfl, hf⟩

theorem exists_make {ns : List Node} {es : List Edge} (h : fault? ns es = none)
    (m : Entries Json) : ∃ g, make ns es m = .ok g ∧ g.nodes = ns ∧ g.edges = es := by
  unfold make
  rw [h]
  exact ⟨_, rfl, rfl, rfl⟩

theorem build_eq_ok {s : RuleSet} (h : (s.build cfg).outcome = .ok g) :
    ∃ p, s.checkedPlan = .ok p ∧ s.graphOf cfg p = .ok g := by
  unfold RuleSet.build at h
  split at h
  · cases h
  next p hp =>
  split at h
  · cases h
  next g' hg => cases h; exact ⟨p, hp, hg⟩

/-- Compiled graphs are drawn from the plan of their rule set. -/
theorem isDrawnFrom_of_build {s : RuleSet} (hs : s.validate cfg = .ok s)
    (h : (s.build cfg).outcome = .ok g) : ∃ p, s.checkedPlan = .ok p ∧ g.IsDrawnFrom cfg p := by
  obtain ⟨p, hp, hg⟩ := build_eq_ok h
  obtain ⟨hn, he, -⟩ := make_eq_ok hg
  exact ⟨p, hp, RuleSet.isSound_of_checkedPlan (RuleSet.isAccepted_of_validate hs).1 hp, hn, he⟩

/-- A rule set without faults compiles where its plan makes a graph. -/
theorem exists_build {s : RuleSet} {p : Plan} (hs : s.fault? cfg = none)
    (hp : s.checkedPlan = .ok p) (hfault : fault? (p.nodes cfg) p.edges = none) :
    ∃ g, s.validate cfg = .ok s ∧ (s.build cfg).outcome = .ok g ∧ g.IsDrawnFrom cfg p := by
  have hvalid : s.validate cfg = .ok s := by simp only [RuleSet.validate, hs]
  obtain ⟨g, hg, -⟩ := exists_make hfault (.ofFields (p.metadata cfg s))
  have hbuild : (s.build cfg).outcome = .ok g := by
    rw [RuleSet.build, hp]
    simp only [RuleSet.graphOf, hg]
  obtain ⟨p', hp', hdrawn⟩ := isDrawnFrom_of_build hvalid hbuild
  obtain rfl := Except.ok.inj (hp.symm.trans hp')
  exact ⟨g, hvalid, hbuild, hdrawn⟩

theorem IsCompiled.exists_isDrawnFrom (h : g.IsCompiled cfg) : ∃ p, g.IsDrawnFrom cfg p := by
  obtain ⟨s, hs, hg⟩ := h
  obtain ⟨p, -, hp⟩ := isDrawnFrom_of_build hs hg
  exact ⟨p, hp⟩

/-- What is compiled out of a payload is built from the rule set of the payload. -/
theorem exists_of_compile {payload : Json} (h : (RuleSet.compile cfg payload).outcome = .ok g) :
    ∃ s, RuleSet.ofPayload payload = .ok s ∧ s.validate cfg = .ok s ∧
      (s.build cfg).outcome = .ok g := by
  unfold RuleSet.compile RuleSet.accept RuleSet.parse at h
  cases hp : RuleSet.ofPayload payload with
  | error f => simp [hp, Logged.bind] at h
  | ok s =>
      cases hv : s.validate cfg with
      | error f => simp [hp, hv, Logged.bind] at h
      | ok t =>
          obtain ⟨-, rfl⟩ := RuleSet.isAccepted_of_validate hv
          refine ⟨t, rfl, hv, ?_⟩
          simpa [hp, hv, Logged.bind] using h

theorem outcome_compile {payload : Json} {s : RuleSet} (hp : RuleSet.ofPayload payload = .ok s)
    (hs : s.validate cfg = .ok s) :
    (RuleSet.compile cfg payload).outcome = (s.build cfg).outcome := by
  simp only [RuleSet.compile, RuleSet.accept, RuleSet.parse, hp, hs, Logged.bind]

/-- What the pipeline compiles out of a payload is compiled. -/
theorem isCompiled_of_compile {payload : Json} (h : (RuleSet.compile cfg payload).outcome = .ok g) :
    g.IsCompiled cfg := by
  obtain ⟨s, -, hs, hg⟩ := exists_of_compile h
  exact ⟨s, hs, hg⟩

end Origin

section Nodes

variable {cfg : Settings} {g : PolicyGraph} {p : Plan}

theorem IsDrawnFrom.mem_nodes (h : g.IsDrawnFrom cfg p) {n : Node} (hn : n ∈ g.nodes) :
    n ∈ p.layout cfg := by
  rw [h.nodes] at hn
  exact Node.mem_of_mem_firsts hn

/-- A text of which only one node was laid out finds that node. -/
theorem IsDrawnFrom.node?_of_unique (h : g.IsDrawnFrom cfg p) {k : String} {n : Node}
    (hn : n ∈ p.layout cfg) (hk : n.id = .str k)
    (unique : ∀ m ∈ p.layout cfg, m.id = .str k → m = n) : g.node? (.str k) = some n := by
  obtain ⟨m, hm, hmk⟩ := Node.exists_mem_firsts hn hk (List.forall_mem_nil _)
  have hmn : m = n := unique m (Node.mem_of_mem_firsts hm) hmk
  refine node?_eq_some ?_ hk fun x hx hxk => unique x (h.mem_nodes hx) hxk
  rw [h.nodes, ← hmn]
  exact hm

theorem IsDrawnFrom.node?_policy (h : g.IsDrawnFrom cfg p) {d : Document}
    (hd : d ∈ p.documents) :
    g.node? (.str (Node.policyKey d.policy)) =
      some (Plan.policyNode cfg d (p.rootsOf d.policy)) :=
  h.node?_of_unique (Plan.mem_layout.mpr (.inl ⟨d, hd, rfl⟩)) rfl
    fun _ hm hk => Plan.eq_policyNode h.sound hd hm hk

theorem IsDrawnFrom.node?_external (h : g.IsDrawnFrom cfg p) {d : Document}
    (hd : d ∈ p.documents) {t : String} (ht : t ∈ p.undeclared d) :
    g.node? (.str (Node.policyKey t)) = some (Plan.externalNode t) :=
  h.node?_of_unique (Plan.mem_layout.mpr (.inr (.inr (.inl ⟨d, hd, t, ht, rfl⟩)))) rfl
    fun _ hm hk => Plan.eq_externalNode (Plan.mem_undeclared.mp ht).2 hm hk

theorem IsDrawnFrom.node?_condition (h : g.IsDrawnFrom cfg p) {q : String × Rule}
    (hq : q ∈ p.placed) :
    g.node? (.str (Node.conditionKey q.2.id)) = some (Plan.conditionNode cfg q.1 q.2.head) :=
  h.node?_of_unique (Plan.mem_layout.mpr (.inr (.inr (.inr ⟨q, hq, .inl rfl⟩)))) rfl
    fun _ hm hk => Plan.eq_conditionNode h.sound hq hm hk

theorem hasNode_of_node? {n : Name} {m : Node} (h : g.node? n = some m) : g.hasNode n = true := by
  simp [hasNode, h]

/-- The policies of a compiled graph: those of its documents, and those they mention. -/
theorem IsDrawnFrom.eq_of_policy (h : g.IsDrawnFrom cfg p) {n : Node} (hn : n ∈ g.nodes)
    (hk : n.kind = .policy) :
    (∃ d ∈ p.documents, n = Plan.policyNode cfg d (p.rootsOf d.policy)) ∨
      ∃ d ∈ p.documents, ∃ t ∈ p.undeclared d, n = Plan.externalNode t := by
  rcases Plan.mem_layout.mp (h.mem_nodes hn) with hd | ⟨d, -, c, -, rfl⟩ | ht | ⟨q, -, rfl | ho⟩
  · exact .inl hd
  · cases hk
  · exact .inr ht
  · cases hk
  · rcases Plan.mem_operandNodes ho with ⟨x, -, rfl⟩ | ⟨s, rfl⟩ <;> cases hk

/-- The clauses of a compiled graph are those of its documents. -/
theorem IsDrawnFrom.eq_of_clause (h : g.IsDrawnFrom cfg p) {n : Node} (hn : n ∈ g.nodes)
    (hk : n.kind = .clause) :
    ∃ d ∈ p.documents, ∃ c ∈ d.clauses, n = Plan.clauseNode d.policy c := by
  rcases Plan.mem_layout.mp (h.mem_nodes hn) with
    ⟨d, -, rfl⟩ | hc | ⟨d, -, t, -, rfl⟩ | ⟨q, -, rfl | ho⟩
  · cases hk
  · exact hc
  · cases hk
  · cases hk
  · rcases Plan.mem_operandNodes ho with ⟨x, -, rfl⟩ | ⟨s, rfl⟩ <;> cases hk

/-- The conditions of a compiled graph are those of the rules of its documents. -/
theorem IsDrawnFrom.eq_of_condition (h : g.IsDrawnFrom cfg p) {n : Node} (hn : n ∈ g.nodes)
    (hk : n.kind = .condition) : ∃ q ∈ p.placed, n = Plan.conditionNode cfg q.1 q.2.head := by
  rcases Plan.mem_layout.mp (h.mem_nodes hn) with
    ⟨d, -, rfl⟩ | ⟨d, -, c, -, rfl⟩ | ⟨d, -, t, -, rfl⟩ | ⟨q, hq, rfl | ho⟩
  · cases hk
  · cases hk
  · cases hk
  · exact ⟨q, hq, rfl⟩
  · rcases Plan.mem_operandNodes ho with ⟨x, -, rfl⟩ | ⟨s, rfl⟩ <;> cases hk

/-- A node without operands is that of a comparison. -/
theorem IsDrawnFrom.eq_of_isLeaf (h : g.IsDrawnFrom cfg p) {n : Node} (hn : n ∈ g.nodes)
    (hleaf : n.isLeaf = true) : ∃ q ∈ p.placed, q.2.head.operator.isLogical = false ∧
      n = Plan.conditionNode cfg q.1 q.2.head := by
  obtain ⟨q, hq, rfl⟩ := h.eq_of_condition hn (Node.kind_of_isLeaf hleaf)
  exact ⟨q, hq, by simpa using hleaf, rfl⟩

/-- There are no more rules than nodes. -/
theorem IsDrawnFrom.length_placed_le (h : g.IsDrawnFrom cfg p) :
    p.placed.length ≤ g.nodes.length := by
  have hnodup : (p.placed.map fun q => Plan.conditionNode cfg q.1 q.2.head).Nodup := by
    have hids := h.sound.ids
    rw [List.Nodup, List.pairwise_map] at hids ⊢
    refine hids.imp fun hne he => hne ?_
    simpa [Plan.conditionNode, Rule.id] using congrArg Node.id he
  have hsub : (p.placed.map fun q => Plan.conditionNode cfg q.1 q.2.head) ⊆ g.nodes := by
    intro n hn
    obtain ⟨q, hq, rfl⟩ := List.mem_map.mp hn
    exact List.mem_of_find?_eq_some (h.node?_condition hq)
  simpa using (List.subperm_of_subset hnodup hsub).length_le

/-- A placed rule is no deeper than there are nodes. -/
theorem IsDrawnFrom.depth_le (h : g.IsDrawnFrom cfg p) {q : String × Rule} (hq : q ∈ p.placed) :
    q.2.depth ≤ g.nodes.length := by
  obtain ⟨d, hd, he, t, ht, hqt⟩ := Plan.mem_placed.mp hq
  have hwalk : (q.2.walk.map fun r => (q.1, r)).Sublist p.placed := by
    have hroots := Rule.walkAll_sublist_of_mem _ (Rule.mem_walkAll.mpr ⟨t, ht, hqt⟩)
    refine (hroots.map fun r => (q.1, r)).trans ?_
    rw [← he]
    exact List.sublist_flatten_of_mem (List.mem_map.mpr ⟨d, hd, rfl⟩)
  have hlength := hwalk.length_le
  rw [List.length_map] at hlength
  exact (q.2.depth_le_length_walk.trans hlength).trans h.length_placed_le

theorem targetOf?_eq_some {e : Edge} {n : Node} {k : NodeKind} (h : g.node? e.target = some n)
    (hk : n.kind = k) : g.targetOf? k e = some n := by
  simp [targetOf?, h, Option.filter, hk]

end Nodes

section Edges

variable {cfg : Settings} {g : PolicyGraph} {p : Plan}

/-- The edges of a graph are the drafts of its plan, numbered. -/
theorem IsDrawnFrom.mem_edges (h : g.IsDrawnFrom cfg p) {e : Edge} :
    e ∈ g.edges ↔ ∃ (n : Nat) (d : Draft), p.drawn[n]? = some d ∧ e = d.toEdge n := by
  rw [h.edges, Plan.edges, ← Plan.drawn, Draft.mem_number]
  simp

theorem IsDrawnFrom.exists_edge (h : g.IsDrawnFrom cfg p) {d : Draft} (hd : d ∈ p.drafts) :
    ∃ n, d.toEdge n ∈ g.edges := by
  obtain ⟨n, hn⟩ := List.mem_iff_getElem?.mp (Plan.mem_drawn.mpr hd)
  exact ⟨n, h.mem_edges.mpr ⟨n, d, hn, rfl⟩⟩

end Edges

section Branches

variable {α : Type}

/-- Branches take the positions of what they belong to. -/
theorem exists_placed {R : α × Nat → Branch → Prop}
    (hR : ∀ c b, R c b → b.edge.position = .ok (c.2 : Int)) :
    ∀ {Z : List (α × Nat)} {bs : List Branch}, List.Forall₂ R Z bs →
      ∃ ps, placed bs = .ok ps ∧
        List.Forall₂ (fun c p => p.1 = (c.2 : Int) ∧ R c p.2) Z ps
  | _, _, .nil => ⟨[], rfl, .nil⟩
  | c :: Z, b :: bs, .cons h hs => by
      obtain ⟨ps, hps, hall⟩ := exists_placed hR hs
      refine ⟨((c.2 : Int), b) :: ps, ?_, .cons ⟨rfl, h⟩ hall⟩
      rw [placed, hR c b h, Attempt.ok_bind, hps]
      rfl

theorem zipIdx_index_inj {xs : List α} {a b : α × Nat} (ha : a ∈ xs.zipIdx) (hb : b ∈ xs.zipIdx)
    (h : a.2 = b.2) : a = b := by
  obtain ⟨x, i⟩ := a
  obtain ⟨y, j⟩ := b
  cases h
  rw [List.mem_zipIdx_iff_getElem?] at ha hb
  simpa using ha.symm.trans hb

theorem zipIdx_pairwise_le (xs : List α) : xs.zipIdx.Pairwise fun a b => a.2 ≤ b.2 := by
  refine List.pairwise_map.mp ?_
  rw [List.zipIdx_map_snd]
  exact (List.pairwise_le_range' (s := 0) (n := xs.length))

/-- Branches of items in any order are arranged as the items are. -/
theorem exists_arrange {R : α × Nat → Branch → Prop}
    (hR : ∀ c b, R c b → b.edge.position = .ok (c.2 : Int)) {xs : List α}
    {Z : List (α × Nat)} (hZ : Z.Perm xs.zipIdx) {bs : List Branch} (hb : List.Forall₂ R Z bs) :
    ∃ cs, arrange bs = .ok cs ∧ List.Forall₂ R xs.zipIdx cs := by
  obtain ⟨ps, hps, hall⟩ := exists_placed hR hb
  set sorted := ps.mergeSort fun a b => decide (a.1 ≤ b.1) with hsorted
  have hperm : sorted.Perm ps := List.mergeSort_perm _ _
  have hpair : sorted.Pairwise fun a b => a.1 ≤ b.1 := by
    have := @List.pairwise_mergeSort _ (fun a b : Int × Branch => decide (a.1 ≤ b.1))
      (fun a b c hab hbc => by simp at *; omega) (fun a b => by simp; omega) ps
    simpa using this
  obtain ⟨Y, hY, hYZ⟩ := List.perm_comp_forall₂ hperm hall.flip
  have hpos : Y.Pairwise fun a b => a.2 ≤ b.2 := by
    have hmap : Y.map (fun c => (c.2 : Int)) = sorted.map (·.1) := by
      refine List.forall₂_eq_eq_eq ▸ ?_
      rw [List.forall₂_map_left_iff, List.forall₂_map_right_iff]
      exact hY.flip.imp fun c q h => h.1.symm
    have : (Y.map fun c => (c.2 : Int)).Pairwise (· ≤ ·) := by
      rw [hmap]
      exact List.pairwise_map.mpr hpair
    exact (List.pairwise_map.mp this).imp fun h => by omega
  have hYx : Y = xs.zipIdx := by
    refine List.Perm.eq_of_pairwise ?_ hpos (zipIdx_pairwise_le xs) (hYZ.trans hZ)
    intro a b ha hb hab hba
    exact zipIdx_index_inj ((hYZ.trans hZ).mem_iff.mp ha) hb (Nat.le_antisymm hab hba)
  refine ⟨sorted.map (·.2), by rw [arrange, hps, Attempt.map_ok], ?_⟩
  rw [List.forall₂_map_right_iff, ← hYx]
  exact hY.flip.imp fun c q h => h.2

variable {cfg : Settings} {g : PolicyGraph} {p : Plan}

/-- The edges of a relation that leave a node are the drafts that say so, numbered. -/
theorem IsDrawnFrom.outEdges_forall₂ (h : g.IsDrawnFrom cfg p) {k : String}
    (hk : g.hasNode (.str k) = true) (r : Relation) :
    ∃ es, g.outEdges (.str k) (some r) = .ok es ∧
      List.Forall₂ (fun d e => ∃ m, e = d.toEdge m)
        (p.drawn.filter fun d => decide (d.relation = r) && decide (d.source = k)) es := by
  refine ⟨_, outEdges_eq hk r, ?_⟩
  rw [h.edges]
  have hnumber : ∀ (d : Draft) (n : Nat),
      (decide ((d.toEdge n).relation = r) && (d.toEdge n).source.alike (.str k)) =
        (decide (d.relation = r) && decide (d.source = k)) := by
    intro d n
    change (decide (d.relation = r) && (Json.str d.source).alike (.str k)) = _
    rw [Json.alike_str]
  exact Draft.filter_number hnumber 0 p.drawn

theorem forall₂_filterMap {β γ δ : Type} {f : β → Option γ} {R : δ → β → Prop}
    {S : δ → γ → Prop} {xs : List δ} {ys : List β} (h : List.Forall₂ R xs ys)
    (hf : ∀ x ∈ xs, ∀ y, R x y → ∃ z, f y = some z ∧ S x z) :
    List.Forall₂ S xs (ys.filterMap f) := by
  induction h with
  | nil => exact .nil
  | @cons x y xs ys hxy _ ih =>
      obtain ⟨z, hz, hS⟩ := hf x (by simp) y hxy
      rw [List.filterMap_cons_some hz]
      exact .cons hS (ih fun x hx => hf x (List.mem_cons_of_mem _ hx))

/-- Where the dependencies of a node lead to rules in some order, its branches are those rules
in their order. -/
theorem IsDrawnFrom.ruleChildren_of_links (h : g.IsDrawnFrom cfg p) {k : String}
    (hk : g.hasNode (.str k) = true) {rs : List Rule} {f : Rule × Nat → Draft}
    (hlinks : (p.drawn.filter (Plan.isLinkOf k)).Perm (rs.zipIdx.map f))
    (htarget : ∀ c, (f c).target = Node.conditionKey c.1.id)
    (hposition : ∀ c n, ((f c).toEdge n).position = .ok (c.2 : Int))
    (policy : String) (hplaced : ∀ r ∈ rs, (policy, r) ∈ p.placed) :
    ∃ bs, g.ruleChildren (.str k) = .ok bs ∧
      List.Forall₂ (fun c b => b.node = Plan.conditionNode cfg policy c.1.head ∧
        ∃ n, b.edge = (f c).toEdge n) rs.zipIdx bs := by
  obtain ⟨es, hes, hall⟩ := h.outEdges_forall₂ hk .dependsOn
  have hself : List.Forall₂ (fun d c => d = f c) (rs.zipIdx.map f) rs.zipIdx := by
    rw [List.forall₂_map_left_iff, List.forall₂_same]
    exact fun _ _ => rfl
  obtain ⟨Z, hZ, hperm⟩ := List.perm_comp_forall₂ hlinks hself
  have hmap : p.drawn.filter (Plan.isLinkOf k) = Z.map f := by
    refine List.forall₂_eq_eq_eq ▸ ?_
    exact List.forall₂_map_right_iff.mpr hZ
  have hedges : List.Forall₂ (fun c e => ∃ n, e = (f c).toEdge n) Z es := by
    rw [← List.forall₂_map_left_iff (f := f) (R := fun d e => ∃ n, e = Draft.toEdge n d), ← hmap]
    exact hall
  -- every edge of a dependency leads to the condition of its rule
  have hbranches := forall₂_filterMap
    (S := fun c b => b.node = Plan.conditionNode cfg policy c.1.head ∧ ∃ n, b.edge = (f c).toEdge n)
    (f := fun e => (g.targetOf? .condition e).map fun m => Branch.mk m e) hedges (by
      rintro c hc e ⟨n, rfl⟩
      have hr : c.1 ∈ rs := by
        obtain ⟨r, i⟩ := c
        exact List.fst_mem_of_mem_zipIdx (hperm.mem_iff.mp hc)
      refine ⟨⟨Plan.conditionNode cfg policy c.1.head, (f c).toEdge n⟩, ?_, rfl, n, rfl⟩
      have hnode : g.node? ((f c).toEdge n).target = _ :=
        congrArg (g.node? <| .str ·) (htarget c) |>.trans (h.node?_condition (hplaced c.1 hr))
      rw [targetOf?_eq_some (k := .condition) hnode rfl, Option.map_some])
  obtain ⟨bs, hbs, hsorted⟩ := exists_arrange (by
    rintro c b ⟨-, n, he⟩
    rw [he]
    exact hposition c n) hperm hbranches
  refine ⟨bs, ?_, hsorted⟩
  rw [ruleChildren, hes, Attempt.ok_bind]
  exact hbs

/-- The branches of a rule are the rules below it, negated where it is a negation. -/
theorem IsDrawnFrom.ruleChildren_condition (h : g.IsDrawnFrom cfg p) {q : String × Rule}
    (hq : q ∈ p.placed) :
    ∃ bs, g.ruleChildren (.str (Node.conditionKey q.2.id)) = .ok bs ∧
      List.Forall₂ (fun c b => b.node = Plan.conditionNode cfg q.1 c.head ∧
        b.edge.isNegated = decide (q.2.operator = .not)) q.2.children bs := by
  obtain ⟨bs, hbs, hall⟩ := h.ruleChildren_of_links (hasNode_of_node? (h.node?_condition hq))
    (Plan.filter_links h.sound hq) (fun _ => rfl)
    (fun c n => by
      simp [Edge.position, Draft.toEdge, Label.properties, Entries.get?_ofFields, Json.nat,
        List.lookup_cons])
    q.1 (fun r hr => Plan.placed_child hq hr)
  refine ⟨bs, hbs, ?_⟩
  rw [← List.zipIdx_map_fst 0 q.2.children, List.forall₂_map_left_iff]
  refine hall.imp fun c b => ?_
  rintro ⟨hn, n, he⟩
  refine ⟨hn, ?_⟩
  rw [he]
  simp [Edge.isNegated, Edge.get, Draft.toEdge, Label.properties, Entries.get?_ofFields,
    List.lookup_cons, Json.truthy]

/-- The branches of a policy are its top-level rules, none of them negated. -/
theorem IsDrawnFrom.policyRoots_policy (h : g.IsDrawnFrom cfg p) {d : Document}
    (hd : d ∈ p.documents) :
    ∃ bs, g.policyRoots (.str d.policy) = .ok bs ∧
      List.Forall₂ (fun c b => b.node = Plan.conditionNode cfg d.policy c.head ∧
        b.edge.isNegated = false) (p.rootsOf d.policy) bs := by
  obtain ⟨bs, hbs, hall⟩ := h.ruleChildren_of_links (hasNode_of_node? (h.node?_policy hd))
    (Plan.filter_rootLinks h.sound hd) (fun _ => rfl)
    (fun c n => by
      simp [Edge.position, Draft.toEdge, Label.properties, Entries.get?_ofFields, Json.nat,
        List.lookup_cons])
    d.policy (fun r hr => Plan.placed_root hd hr)
  refine ⟨bs, by rw [policyRoots, Node.policyId_str, hbs], ?_⟩
  rw [← List.zipIdx_map_fst 0 (p.rootsOf d.policy), List.forall₂_map_left_iff]
  refine hall.imp fun c b => ?_
  rintro ⟨hn, n, he⟩
  refine ⟨hn, ?_⟩
  rw [he]
  simp [Edge.isNegated, Edge.get, Draft.toEdge, Label.properties, Entries.get?_ofFields,
    List.lookup_cons, Json.truthy]

end Branches

section Policies

variable {cfg : Settings} {g : PolicyGraph} {p : Plan}

/-- A policy that a document requires is declared by a document, or only mentioned. -/
theorem IsDrawnFrom.node?_required (h : g.IsDrawnFrom cfg p) {d : Document}
    (hd : d ∈ p.documents) {t : String} (ht : t ∈ d.prerequisites) :
    (∃ e ∈ p.documents, e.policy = t ∧ g.node? (.str (Node.policyKey t)) =
      some (Plan.policyNode cfg e (p.rootsOf e.policy))) ∨
    (t ∉ p.documents.map Document.policy ∧
      g.node? (.str (Node.policyKey t)) = some (Plan.externalNode t)) := by
  by_cases hdeclared : t ∈ p.documents.map Document.policy
  · obtain ⟨e, he, rfl⟩ := List.mem_map.mp hdeclared
    exact .inl ⟨e, he, rfl, h.node?_policy he⟩
  · have hmention : t ∈ p.undeclared d := Plan.mem_undeclared.mpr ⟨.inl ht, hdeclared⟩
    exact .inr ⟨hdeclared, h.node?_external hd hmention⟩

/-- The policies that a declared policy requires, in the order of its document. -/
theorem IsDrawnFrom.requiredPolicies_policy (h : g.IsDrawnFrom cfg p) {d : Document}
    (hd : d ∈ p.documents) :
    g.requiredPolicies (.str d.policy) =
      .ok ((RuleSet.firstTexts [] d.prerequisites).map .str) := by
  obtain ⟨es, hes, hall⟩ := h.outEdges_forall₂ (hasNode_of_node? (h.node?_policy hd)) .requires
  rw [show (p.drawn.filter fun x => decide (x.relation = .requires) &&
      decide (x.source = Node.policyKey d.policy)) = _ from Plan.filter_requirements h.sound hd,
    List.forall₂_map_left_iff] at hall
  have hnames := forall₂_filterMap (S := fun t n => n = Json.str t)
    (f := fun e => (g.targetOf? .policy e).map Node.policy) hall (by
      rintro t ht e ⟨n, rfl⟩
      refine ⟨.str t, ?_, rfl⟩
      have ht : t ∈ d.prerequisites := (Plan.mem_firstTexts.mp ht).1
      rcases h.node?_required hd ht with ⟨e, -, rfl, hn⟩ | ⟨-, hn⟩
      · rw [targetOf?_eq_some (k := .policy) hn rfl, Option.map_some, Plan.policyNode_policy]
      · rw [targetOf?_eq_some (k := .policy) hn rfl, Option.map_some, Plan.externalNode_policy])
  rw [requiredPolicies, Node.policyId_str, hes, Attempt.ok_bind]
  refine congrArg Except.ok ?_
  refine List.forall₂_eq_eq_eq ▸ ?_
  rw [List.forall₂_map_right_iff]
  exact hnames.flip

/-- The clauses of a policy are named by texts. -/
theorem IsDrawnFrom.clausesOf_policy (h : g.IsDrawnFrom cfg p) {k : String}
    (hk : g.hasNode (.str (Node.policyKey k)) = true) :
    ∃ cs : List String, g.clausesOf (.str k) = .ok (cs.map .str) := by
  rw [clausesOf, Node.policyId_str, outEdges_eq hk, Attempt.ok_bind]
  have htexts : ∀ es : List Edge, ∃ cs : List String,
      (es.filterMap fun e => (g.targetOf? .clause e).map Node.ownClause) = cs.map .str := by
    intro es
    induction es with
    | nil => exact ⟨[], rfl⟩
    | cons e r ih =>
        obtain ⟨cs, hcs⟩ := ih
        cases ht : g.targetOf? .clause e with
        | none => exact ⟨cs, by rw [List.filterMap_cons_none (by simp [ht]), hcs]⟩
        | some n =>
            obtain ⟨hn, hkind⟩ := Option.filter_eq_some_iff.mp ht
            have hmem : n ∈ g.nodes := List.mem_of_find?_eq_some hn
            obtain ⟨d, -, c, -, rfl⟩ := h.eq_of_clause hmem (by simpa using hkind)
            exact ⟨c.id :: cs, by rw [List.filterMap_cons_some (by simp [ht]; rfl), hcs]; simp⟩
  obtain ⟨cs, hcs⟩ := htexts _
  exact ⟨cs, congrArg Except.ok hcs⟩

/-- The first clause of a policy is a text or null. -/
theorem IsDrawnFrom.firstClause_policy (h : g.IsDrawnFrom cfg p) {k : String}
    (hk : g.hasNode (.str (Node.policyKey k)) = true) :
    ∃ c : Option String, g.firstClause (.str k) = .ok (Json.str? c) := by
  obtain ⟨cs, hcs⟩ := h.clausesOf_policy hk
  refine ⟨cs.head?, ?_⟩
  rw [firstClause, hcs, Attempt.map_ok]
  cases cs <;> rfl

end Policies

end PolicyGraph
end Eligibility
