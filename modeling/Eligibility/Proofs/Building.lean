import Eligibility.Proofs.Composition
/-!
# Building graphs

**Clauses.**  A clause belongs to the document that lists it; without documents it belongs
to the first top-level rule whose tree cites it.  In the plan of an accepted rule set every
clause belongs to one policy.

**Success.**  Every rule of an accepted rule set cites a clause that belongs to a policy, every
edge of its plan joins two nodes, and no identifier stands twice: its graph is built.

**Results.**
* `holder?_eq_some_iff`: the owners of clauses in a plan.
* `exists_checkedPlan`: an accepted rule set has a plan.
* `fault?_eq_none_of_plan`: the nodes and the edges of a plan make a graph.
* `exists_build_of_validate`: a rule set that validation accepts is built.
-/

namespace Eligibility

/-- Whether a rule of a tree cites a clause. -/
def Rule.cites (clause : String) (r : Rule) : Bool := (r.heads.map Head.clause).contains clause

/-- Whether a document lists a clause. -/
def Document.lists (clause : String) (d : Document) : Bool :=
  (d.clauses.map Clause.id).contains clause

theorem Rule.cites_iff {clause : String} {r : Rule} :
    r.cites clause = true ↔ clause ∈ r.heads.map Head.clause := List.contains_iff_mem

theorem Document.lists_iff {clause : String} {d : Document} :
    d.lists clause = true ↔ clause ∈ d.clauses.map Clause.id := List.contains_iff_mem

theorem exists_find? {α : Type} {P : α → Bool} {xs : List α} {x : α} (hx : x ∈ xs)
    (h : P x = true) : ∃ y, xs.find? P = some y :=
  Option.isSome_iff_exists.mp (List.find?_isSome.mpr ⟨x, hx, h⟩)

namespace RuleSet

/-- The policy that a clause belongs to. -/
def holder? (s : RuleSet) (clause : String) : Option String :=
  if s.documents.isEmpty then (s.rules.find? (Rule.cites clause)).map Rule.id
  else (s.documents.find? (Document.lists clause)).map Document.policy

section Clauses

theorem mem_ownedClauses {ds : List Document} {c a : String} :
    (c, a) ∈ ownedClauses ds ↔ ∃ d ∈ ds, d.policy = a ∧ d.lists c = true := by
  simp only [ownedClauses, List.mem_flatMap, List.mem_map, Prod.mk.injEq, Document.lists_iff]
  constructor
  · rintro ⟨d, hd, cl, hcl, rfl, rfl⟩
    exact ⟨d, hd, rfl, cl, hcl, rfl⟩
  · rintro ⟨d, hd, rfl, cl, hcl, rfl⟩
    exact ⟨d, hd, cl, hcl, rfl, rfl⟩

theorem ownedClauses_declare_cons (owned : List String) (r : Rule) (rs : List Rule) :
    ownedClauses (declare owned (r :: rs)) =
      (firstTexts owned (r.heads.map Head.clause)).map (fun c => (c, r.id)) ++
        ownedClauses (declare (firstTexts owned (r.heads.map Head.clause) ++ owned) rs) := by
  simp [ownedClauses, declare, Function.comp_def]

/-- Of several top-level rules the first one that cites a clause owns it, unless it was owned
before. -/
theorem mem_ownedClauses_declare {owned : List String} {rs : List Rule} {c a : String} :
    (c, a) ∈ ownedClauses (declare owned rs) ↔
      c ∉ owned ∧ (rs.find? (Rule.cites c)).map Rule.id = some a := by
  induction rs generalizing owned with
  | nil => simp [declare, ownedClauses]
  | cons r rs ih =>
      have hfresh :
          (c, a) ∈ (firstTexts owned (r.heads.map Head.clause)).map (fun x => (x, r.id)) ↔
            (r.cites c = true ∧ c ∉ owned) ∧ r.id = a := by
        simp only [List.mem_map, Prod.mk.injEq, Plan.mem_firstTexts, Rule.cites_iff]
        constructor
        · rintro ⟨x, hx, rfl, ha⟩
          exact ⟨hx, ha⟩
        · rintro ⟨hx, ha⟩
          exact ⟨c, hx, rfl, ha⟩
      rw [ownedClauses_declare_cons, List.mem_append, ih, hfresh, List.mem_append,
        Plan.mem_firstTexts, ← Rule.cites_iff]
      by_cases hc : r.cites c = true
      · rw [List.find?_cons_of_pos hc, Option.map_some, Option.some.injEq]
        tauto
      · rw [List.find?_cons_of_neg hc]
        tauto

theorem nodup_ownedClauses_declare (owned : List String) (rs : List Rule) :
    ((ownedClauses (declare owned rs)).map (·.1)).Nodup := by
  induction rs generalizing owned with
  | nil => simp [declare, ownedClauses]
  | cons r rs ih =>
      rw [ownedClauses_declare_cons, List.map_append, List.map_map]
      refine List.Nodup.append ?_ (ih _) fun c hc hc' => ?_
      · simpa [Function.comp_def] using Plan.firstTexts_nodup owned (r.heads.map Head.clause)
      · -- what the rest declares was not owned before, neither by this rule
        obtain ⟨⟨c', a⟩, hmem, rfl⟩ := List.mem_map.mp hc'
        refine (mem_ownedClauses_declare.mp hmem).1 (List.mem_append_left _ ?_)
        simpa [Function.comp_def] using hc

variable {s : RuleSet} {p : Plan}

/-- A clause stands once among those that the documents of a plan own. -/
theorem nodup_ownedClauses (hs : s.IsAccepted) (h : s.plan = .ok p) :
    ((ownedClauses p.documents).map (·.1)).Nodup := by
  have hmode := (plan_spec h).2
  split_ifs at hmode with he
  · rw [hmode.1]
    exact nodup_ownedClauses_declare [] s.rules
  · rw [hmode.1]
    exact hs.clauses

theorem ownedClauses_unique (hs : s.IsAccepted) (h : s.plan = .ok p) {c a b : String}
    (ha : (c, a) ∈ ownedClauses p.documents) (hb : (c, b) ∈ ownedClauses p.documents) : a = b :=
  congrArg Prod.snd (List.inj_on_of_nodup_map (nodup_ownedClauses hs h) ha hb rfl)

/-- The clauses that the documents of a plan own, with the policies they belong to. -/
theorem holder?_eq_some_iff (hs : s.IsAccepted) (h : s.plan = .ok p) {c a : String} :
    s.holder? c = some a ↔ (c, a) ∈ ownedClauses p.documents := by
  have hunique : ∀ b, (c, a) ∈ ownedClauses p.documents → (c, b) ∈ ownedClauses p.documents →
      a = b := fun b => ownedClauses_unique hs h
  have hmode := (plan_spec h).2
  unfold holder?
  split_ifs at hmode with he
  · rw [hmode.1, mem_ownedClauses_declare, he]
    simp
  · rw [hmode.1] at hunique ⊢
    rw [if_neg (by simpa using he), Option.map_eq_some_iff]
    constructor
    · rintro ⟨d, hd, rfl⟩
      exact mem_ownedClauses.mpr ⟨d, List.mem_of_find?_eq_some hd, rfl, List.find?_some hd⟩
    · intro hmem
      obtain ⟨d, hd, -, hc⟩ := mem_ownedClauses.mp hmem
      obtain ⟨e, hfind⟩ := exists_find? hd hc
      refine ⟨e, hfind, (hunique e.policy hmem ?_).symm⟩
      exact mem_ownedClauses.mpr ⟨e, List.mem_of_find?_eq_some hfind, rfl, List.find?_some hfind⟩

/-- Every clause that an accepted rule set cites belongs to a policy. -/
theorem exists_holder (hs : s.IsAccepted) {h : Head} (hh : h ∈ s.heads) :
    ∃ a, s.holder? h.clause = some a := by
  unfold holder?
  split
  · rw [heads, Rule.headsOf_eq_flatMap, List.mem_flatMap] at hh
    obtain ⟨r, hr, hh⟩ := hh
    obtain ⟨t, ht⟩ := exists_find? hr (Rule.cites_iff.mpr (List.mem_map_of_mem hh))
    exact ⟨t.id, by rw [ht, Option.map_some]⟩
  · next he =>
    obtain ⟨⟨_, a⟩, hmem, rfl⟩ := List.mem_map.mp (hs.cited (by simpa using he) h hh)
    obtain ⟨d, hd, -, hheld⟩ := mem_ownedClauses.mp hmem
    obtain ⟨e, he⟩ := exists_find? hd hheld
    exact ⟨e.policy, by rw [he, Option.map_some]⟩

end Clauses

section Plans

theorem exists_lookup {α : Type} {k : String} {v : α} {xs : List (String × α)}
    (h : (k, v) ∈ xs) : ∃ w, xs.lookup k = some w := by
  induction xs with
  | nil => cases h
  | cons x r ih =>
      rw [List.lookup_cons]
      cases hx : k == x.1 with
      | true => exact ⟨x.2, rfl⟩
      | false =>
          refine ih ((List.mem_cons.mp h).resolve_left ?_)
          rintro rfl
          simp at hx

theorem exists_owner? {ds : List Document} {c a : String} (h : (c, a) ∈ ownedClauses ds) :
    ∃ b, owner? ds c = some b := exists_lookup h

variable {s : RuleSet}

theorem exists_assign {ds : List Document} {rs : List Rule}
    (h : ∀ r ∈ rs, ∃ a, owner? ds r.head.clause = some a) : ∃ roots, assign ds rs = .ok roots := by
  induction rs with
  | nil => exact ⟨[], rfl⟩
  | cons r rs ih =>
      obtain ⟨a, ha⟩ := h r List.mem_cons_self
      obtain ⟨roots, hroots⟩ := ih fun t ht => h t (List.mem_cons_of_mem r ht)
      exact ⟨(a, r) :: roots, by rw [assign, ha, hroots]; rfl⟩

theorem head_mem_heads {r : Rule} (hr : r ∈ Rule.walkAll s.rules) : r.head ∈ s.heads := by
  rw [heads, Rule.headsOf_eq_map_walkAll]
  exact List.mem_map_of_mem hr

theorem root_mem_walkAll {r : Rule} (hr : r ∈ s.rules) : r ∈ Rule.walkAll s.rules :=
  Rule.mem_walkAll.mpr ⟨r, hr, r.mem_walk_self⟩

/-- A top-level rule of an accepted rule set can stand for a document. -/
theorem declarationFault?_eq_none (hs : s.IsAccepted) {r : Rule} (hr : r ∈ s.rules) :
    declarationFault? r = none := by
  have hclauses : (r.heads.any fun h => decide (h.clause = "")) = false := by
    rw [List.any_eq_false]
    intro h hh
    rw [Rule.heads_eq_map_walk] at hh
    obtain ⟨t, ht, rfl⟩ := List.mem_map.mp hh
    simpa using (hs.sound t (Rule.mem_walkAll.mpr ⟨r, hr, ht⟩)).clause_ne
  have hid : r.id ≠ "" := (hs.sound r (root_mem_walkAll hr)).id_ne
  rw [declarationFault?, hclauses, if_neg (by simp), if_neg hid]

theorem exists_plan (hs : s.IsAccepted) : ∃ p, s.plan = .ok p := by
  unfold plan
  split
  · have hnone : s.rules.findSome? declarationFault? = none :=
      List.findSome?_eq_none_iff.mpr fun r hr => declarationFault?_eq_none hs hr
    rw [hnone]
    exact ⟨_, rfl⟩
  · next he =>
    have howners : ∀ r ∈ s.rules, ∃ a, owner? s.documents r.head.clause = some a := by
      intro r hr
      obtain ⟨⟨_, a⟩, hmem, rfl⟩ := List.mem_map.mp
        (hs.cited (by simpa using he) r.head (head_mem_heads (root_mem_walkAll hr)))
      exact exists_owner? hmem
    obtain ⟨roots, hroots⟩ := exists_assign howners
    exact ⟨⟨s.documents, roots⟩, by rw [hroots, Attempt.map_ok]⟩

/-- An accepted rule set has a plan all of whose rules can be compiled. -/
theorem exists_checkedPlan (hs : s.IsAccepted) : ∃ p, s.checkedPlan = .ok p := by
  obtain ⟨p, hp⟩ := exists_plan hs
  have hnone : p.heads.findSome? (Plan.headFault? p.documents) = none := by
    refine List.findSome?_eq_none_iff.mpr fun h hh => ?_
    rw [Plan.heads_eq_map_placed] at hh
    obtain ⟨q, hq, rfl⟩ := List.mem_map.mp hh
    have hr : q.2 ∈ Rule.walkAll s.rules :=
      (placed_perm hs hp).mem_iff.mp (List.mem_map_of_mem hq)
    obtain ⟨x, hx, -⟩ := (hs.sound q.2 hr).confidence
    obtain ⟨a, ha⟩ := exists_holder hs (head_mem_heads hr)
    obtain ⟨b, hb⟩ := exists_owner? ((holder?_eq_some_iff hs hp).mp ha)
    simp [Plan.headFault?, hx, hb]
  exact ⟨p, by simp only [checkedPlan, hp, hnone]⟩

end Plans

end RuleSet

namespace Plan

section Ends

variable {cfg : Settings} {p : Plan}

/-- Whatever is laid out has its identifier among the nodes. -/
theorem id_mem_nodes {n : Node} (hn : n ∈ p.layout cfg) : n.id ∈ (p.nodes cfg).map Node.id := by
  obtain ⟨k, hk⟩ := PolicyGraph.exists_id_of_mem_layout hn
  obtain ⟨m, hm, hmk⟩ := Node.exists_mem_firsts hn hk (List.forall_mem_nil _)
  exact List.mem_map.mpr ⟨m, hm, hmk.trans hk.symm⟩

theorem policy_mem_nodes {d : Document} (hd : d ∈ p.documents) :
    .str (Node.policyKey d.policy) ∈ (p.nodes cfg).map Node.id :=
  id_mem_nodes (n := policyNode cfg d (p.rootsOf d.policy)) (mem_layout.mpr (.inl ⟨d, hd, rfl⟩))

theorem clause_mem_nodes {d : Document} (hd : d ∈ p.documents) {c : String}
    (hc : d.lists c = true) : .str (Node.clauseKey c) ∈ (p.nodes cfg).map Node.id := by
  obtain ⟨cl, hcl, rfl⟩ := List.mem_map.mp (Document.lists_iff.mp hc)
  exact id_mem_nodes (n := clauseNode d.policy cl)
    (mem_layout.mpr (.inr (.inl ⟨d, hd, cl, hcl, rfl⟩)))

theorem condition_mem_nodes {q : String × Rule} (hq : q ∈ p.placed) :
    .str (Node.conditionKey q.2.id) ∈ (p.nodes cfg).map Node.id :=
  id_mem_nodes (n := conditionNode cfg q.1 q.2.head)
    (mem_layout.mpr (.inr (.inr (.inr ⟨q, hq, .inl rfl⟩))))

/-- A policy that a document mentions has a node, whether it is declared or not. -/
theorem mentioned_mem_nodes {d : Document} (hd : d ∈ p.documents) {t : String}
    (ht : t ∈ d.prerequisites ∨ t ∈ d.appliesTo) :
    .str (Node.policyKey t) ∈ (p.nodes cfg).map Node.id := by
  by_cases hdeclared : t ∈ p.documents.map Document.policy
  · obtain ⟨e, he, rfl⟩ := List.mem_map.mp hdeclared
    exact policy_mem_nodes he
  · have hmention : t ∈ p.undeclared d := mem_undeclared.mpr ⟨ht, hdeclared⟩
    exact id_mem_nodes (n := externalNode t)
      (mem_layout.mpr (.inr (.inr (.inl ⟨d, hd, t, hmention, rfl⟩))))

theorem operand_mem_nodes {q : String × Rule} (hq : q ∈ p.placed) {d : Draft}
    (hd : d ∈ operandDrafts q.2.head) : .str d.target ∈ (p.nodes cfg).map Node.id := by
  obtain ⟨n, hn, hid⟩ : ∃ n ∈ operandNodes q.2.head, n.id = .str d.target := by
    unfold operandDrafts at hd
    unfold operandNodes
    split at hd
    next x hx =>
      rw [List.mem_singleton.mp hd]
      exact ⟨_, List.mem_singleton_self _, rfl⟩
    next v hnumber hv =>
      obtain ⟨name, hname, rfl⟩ := List.mem_map.mp hd
      exact ⟨entityNode name, List.mem_map_of_mem hname, rfl⟩
    next => cases hd
  rw [← hid]
  exact id_mem_nodes (mem_layout.mpr (.inr (.inr (.inr ⟨q, hq, .inr hn⟩))))

theorem source_of_mem_operandDrafts {h : Head} {d : Draft} (hd : d ∈ operandDrafts h) :
    d.source = Node.conditionKey h.id := by
  unfold operandDrafts at hd
  split at hd
  · rw [List.mem_singleton.mp hd]
  · obtain ⟨name, -, rfl⟩ := List.mem_map.mp hd
    rfl
  · cases hd

/-- Both ends of what is drawn are nodes. -/
theorem ends_mem_nodes (hp : p.IsSound) {d : Draft} (hd : d ∈ p.drafts) :
    .str d.source ∈ (p.nodes cfg).map Node.id ∧ .str d.target ∈ (p.nodes cfg).map Node.id := by
  rcases mem_drafts.mp hd with
    ⟨e, he, c, hc, rfl⟩ | ⟨e, he, hlink⟩ | ⟨q, hq, hown | hlink⟩ | ⟨e, he, hmention⟩
  · exact ⟨policy_mem_nodes he,
      clause_mem_nodes he (Document.lists_iff.mpr (List.mem_map_of_mem hc))⟩
  · obtain ⟨c, hc, rfl⟩ := List.mem_map.mp hlink
    exact ⟨policy_mem_nodes he,
      condition_mem_nodes (placed_root he (List.fst_mem_of_mem_zipIdx hc))⟩
  · obtain ⟨a, ha⟩ := Option.isSome_iff_exists.mp (hp.owners q hq)
    obtain ⟨o, ho, rfl, hheld⟩ := RuleSet.owner?_mem ha
    obtain ⟨e, he, hpolicy, -⟩ := mem_placed.mp hq
    rcases List.mem_append.mp hown with hclause | hoperand
    · rw [clauseDrafts, ha] at hclause
      rcases List.mem_cons.mp hclause with rfl | hvia
      · exact ⟨clause_mem_nodes ho (Document.lists_iff.mpr hheld), condition_mem_nodes hq⟩
      · -- an edge to the policy that holds the clause, unless it is the rule's own
        dsimp only at hvia
        split_ifs at hvia with hsame
        · cases hvia
        · rw [List.mem_singleton.mp hvia]
          exact ⟨hpolicy ▸ policy_mem_nodes he, policy_mem_nodes ho⟩
    · exact ⟨source_of_mem_operandDrafts hoperand ▸ condition_mem_nodes hq,
        operand_mem_nodes hq hoperand⟩
  · obtain ⟨c, hc, rfl⟩ := List.mem_map.mp hlink
    exact ⟨condition_mem_nodes hq,
      condition_mem_nodes (placed_child hq (List.fst_mem_of_mem_zipIdx hc))⟩
  · unfold mentionDrafts at hmention
    rcases List.mem_append.mp hmention with hrequires | happlies
    · obtain ⟨t, ht, rfl⟩ := List.mem_map.mp hrequires
      exact ⟨policy_mem_nodes he, mentioned_mem_nodes he (.inl (mem_firstTexts.mp ht).1)⟩
    · obtain ⟨t, ht, rfl⟩ := List.mem_map.mp happlies
      exact ⟨policy_mem_nodes he,
        mentioned_mem_nodes he (.inr (mem_firstTexts.mp (List.mem_filter.mp ht).1).1)⟩

end Ends

section Graphs

variable {cfg : Settings} {p : Plan}

/-- Nodes named by texts that are kept have different texts. -/
theorem nodup_firsts {ns : List Node} (hns : ∀ n ∈ ns, ∃ k, n.id = .str k) (seen : List Name) :
    ((Node.firsts seen ns).map Node.id).Nodup ∧ ∀ n ∈ Node.firsts seen ns, n.id ∉ seen := by
  induction ns generalizing seen with
  | nil => simp [Node.firsts]
  | cons m r ih =>
      have hr : ∀ n ∈ r, ∃ k, n.id = .str k := fun n hn => hns n (List.mem_cons_of_mem m hn)
      unfold Node.firsts
      split_ifs with hamong
      · exact ih hr seen
      · obtain ⟨hnodup, hfresh⟩ := ih hr (m.id :: seen)
        obtain ⟨k, hk⟩ := hns m List.mem_cons_self
        rw [List.map_cons, List.nodup_cons, List.mem_map]
        refine ⟨⟨?_, hnodup⟩, ?_⟩
        · rintro ⟨n, hn, hid⟩
          exact hfresh n hn (hid ▸ List.mem_cons_self)
        · intro n hn hmem
          rcases List.mem_cons.mp hn with rfl | hn
          · refine hamong (List.any_eq_true.mpr ⟨n.id, hmem, ?_⟩)
            rw [hk, Json.alike_str, decide_eq_true_eq]
          · exact hfresh n hn (List.mem_cons_of_mem _ hmem)

theorem nodup_nodes : ((p.nodes cfg).map Node.id).Nodup :=
  (nodup_firsts (fun _ => PolicyGraph.exists_id_of_mem_layout) []).1

theorem isIndexable_of_mem_layout {n : Node} (hn : n ∈ p.layout cfg) :
    PolicyGraph.isIndexable n = true := by
  have hother : n.kind ≠ .condition → n.kind ≠ .clause → PolicyGraph.isIndexable n = true := by
    intro hcondition hclause
    have hleaf : n.isLeaf = false := by simp [Node.isLeaf, Node.isCondition, hcondition]
    have hnone : n.clause? = none := by
      unfold Node.clause?
      split
      · next hk => exact absurd hk hclause
      · next hk => exact absurd hk hcondition
      · rfl
    simp [PolicyGraph.isIndexable, Node.subject?, hleaf, hnone]
  rcases mem_layout.mp hn with
    ⟨d, -, rfl⟩ | ⟨d, -, c, -, rfl⟩ | ⟨d, -, t, -, rfl⟩ | ⟨q, -, rfl | ho⟩
  · exact hother (by simp [policyNode]) (by simp [policyNode])
  · have hleaf : (clauseNode d.policy c).isLeaf = false := rfl
    have hclause : (clauseNode d.policy c).clause? = some (clauseNode d.policy c).ownClause := rfl
    rw [PolicyGraph.isIndexable, Node.subject?, hleaf, hclause, clauseNode_ownClause]
    rfl
  · exact hother (by simp [externalNode]) (by simp [externalNode])
  · have hclause : (conditionNode cfg q.1 q.2.head).clause? =
        some (conditionNode cfg q.1 q.2.head).citedClause := rfl
    rw [PolicyGraph.isIndexable, Node.subject?, hclause, conditionNode_citedClause,
      conditionNode_subject]
    split <;> rfl
  · rcases mem_operandNodes ho with ⟨x, -, rfl⟩ | ⟨s, rfl⟩
    · exact hother (by simp [thresholdNode]) (by simp [thresholdNode])
    · exact hother (by simp [entityNode]) (by simp [entityNode])

/-- The nodes and the edges of a sound plan make a graph. -/
theorem fault?_eq_none_of_plan (hp : p.IsSound) :
    PolicyGraph.fault? (p.nodes cfg) p.edges = none := by
  have hlayout : ∀ n ∈ p.nodes cfg, n ∈ p.layout cfg := fun n hn => Node.mem_of_mem_firsts hn
  refine PolicyGraph.fault?_eq_none (fun n hn => PolicyGraph.exists_id_of_mem_layout (hlayout n hn))
    (fun n hn => isIndexable_of_mem_layout (hlayout n hn)) nodup_nodes (fun e he => ?_)
    fun e he => ?_
  · obtain ⟨i, d, hi, rfl⟩ := Draft.mem_number.mp he
    exact ends_mem_nodes hp (mem_drawn.mp (List.mem_of_getElem? hi))
  · obtain ⟨i, d, -, rfl⟩ := Draft.mem_number.mp he
    exact ⟨_, rfl⟩

end Graphs

end Plan

/-- A rule set that validation accepts is built, from a plan and with its metadata. -/
theorem RuleSet.exists_build_of_validate {cfg : Settings} {s : RuleSet}
    (hs : s.validate cfg = .ok s) : ∃ p g, s.plan = .ok p ∧ (s.build cfg).outcome = .ok g ∧
      g.IsDrawnFrom cfg p ∧ g.metadata = .ofFields (p.metadata cfg s) := by
  have haccepted := (isAccepted_of_validate hs).1
  obtain ⟨p, hp⟩ := exists_checkedPlan haccepted
  have hsound := isSound_of_checkedPlan haccepted hp
  set g : PolicyGraph := ⟨p.nodes cfg, p.edges, .ofFields (p.metadata cfg s),
    Index.of (p.nodes cfg) p.edges, rfl⟩ with hg
  have hmake : s.graphOf cfg p = .ok g := by
    rw [graphOf, PolicyGraph.make, Plan.fault?_eq_none_of_plan hsound]
  have hbuild : (s.build cfg).outcome = .ok g := by
    rw [build, hp]
    simp only [hmake]
  exact ⟨p, g, (checkedPlan_spec hp).1, hbuild, ⟨hsound, rfl, rfl⟩, rfl⟩

end Eligibility
