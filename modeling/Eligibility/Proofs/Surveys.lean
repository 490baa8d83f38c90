import Eligibility.Proofs.PolicyEdges
import Eligibility.Proofs.ProperEndings
import Eligibility.Proofs.Tallies
/-!
# What is found of a policy

**Trees.**  From a policy of a compiled graph the trees of its rules are reached, with as many
levels and with one node for each rule.

**Clauses.**  A policy has the clauses that the rule set gives to it, and each of them has one
clause node.

**Links.**  The edges from a policy to policies are those to the policies it requires, those to the
policies its document applies to, and one for each clause of another policy that its rules cite.

**Results.**
* `IsDrawnFrom.surveyTrees_eq`: the trees and the clauses of a policy.
* `IsDrawnFrom.linkCount_eq`: the links of a policy.
-/

namespace Eligibility
open Attempt

namespace Plan

section Readings

variable (cfg : Settings) (policy : String)

@[simp] theorem conditionNode_isCompound (h : Head) :
    (conditionNode cfg policy h).isCompound = h.operator.isLogical := by
  simp [conditionNode, Node.isCompound, Node.isCondition, Node.get, Node.property?,
    Entries.get?_ofFields, List.lookup_cons, Property.toJson, Json.truthy]

@[simp] theorem conditionNode_low (h : Head) :
    ((conditionNode cfg policy h).get "low_confidence").truthy = isLow cfg h := by
  simp [conditionNode, Node.get, Node.property?, Entries.get?_ofFields, List.lookup_cons,
    Property.toJson, Json.truthy]

@[simp] theorem clauseNode_ambiguous (c : Clause) :
    ((clauseNode policy c).get "ambiguous").truthy = c.ambiguous := by
  simp [clauseNode, Node.get, Node.property?, Entries.get?_ofFields, List.lookup_cons,
    Property.toJson, Json.truthy]

@[simp] theorem clauseNode_clause? (c : Clause) :
    (clauseNode policy c).clause? = some (.str c.id) :=
  congrArg some (clauseNode_ownClause policy c)

end Readings

variable {p : Plan} {a : String}

/-- What a document mentions: the policies it requires, and the others it applies to. -/
theorem mem_mentionDrafts {d : Document} {x : Draft} : x ∈ mentionDrafts d ↔
    (∃ t ∈ d.prerequisites,
      x = ⟨Node.policyKey d.policy, Node.policyKey t, .requires, .plain⟩) ∨
    ∃ t ∈ d.appliesTo, t ≠ d.policy ∧
      x = ⟨Node.policyKey d.policy, Node.policyKey t, .appliesTo, .plain⟩ := by
  simp [mentionDrafts, mem_firstTexts, and_assoc, @eq_comm _ x]

/-- The edges that link a policy to others: what its document mentions, and the owners of clauses
that its rules cite. -/
theorem mem_drafts_of_isLink {x : Draft} (hlink : x.relation.isLink = true)
    (hx : x.source = Node.policyKey a) : x ∈ p.drafts ↔
      (∃ d ∈ p.documents, d.policy = a ∧ x ∈ mentionDrafts d) ∨
      ∃ r, (a, r) ∈ p.placed ∧ ∃ b, RuleSet.owner? p.documents r.head.clause = some b ∧ b ≠ a ∧
        x = ⟨Node.policyKey a, Node.policyKey b, .appliesTo, .via r.head.clause⟩ := by
  rw [mem_drafts]
  constructor
  · rintro (⟨d, -, c, -, rfl⟩ | ⟨d, -, hd⟩ | ⟨⟨b, r⟩, hr, hown | hbelow⟩ | ⟨d, hd, hmention⟩)
    · cases hlink
    · obtain ⟨c, -, rfl⟩ := List.mem_map.mp hd
      cases hlink
    · rcases List.mem_append.mp hown with hclause | hoperand
      · rcases List.mem_cons.mp hclause with rfl | hclause
        · cases hlink
        · split at hclause
          · next owner howner =>
            split at hclause
            · cases hclause
            · next hne =>
              obtain rfl := List.mem_singleton.mp hclause
              obtain rfl := Node.policyKey_inj.mp hx
              exact .inr ⟨r, hr, owner, howner, hne, rfl⟩
          · cases hclause
      · exact absurd (hx.symm.trans (source_of_mem_operandDrafts hoperand))
          (Node.policyKey_ne_conditionKey _ _)
    · obtain ⟨c, -, rfl⟩ := List.mem_map.mp hbelow
      cases hlink
    · have hsource := (relation_of_mem_mentionDrafts hmention).2.2
      exact .inl ⟨d, hd, Node.policyKey_inj.mp (hsource.symm.trans hx), hmention⟩
  · rintro (⟨d, hd, -, hmention⟩ | ⟨r, hr, b, howner, hne, rfl⟩)
    · exact .inr (.inr (.inr ⟨d, hd, hmention⟩))
    · refine .inr (.inr (.inl ⟨(a, r), hr, .inl (List.mem_append.mpr (.inl ?_))⟩))
      simp [clauseDrafts, howner, hne]

end Plan

namespace RuleSet

variable {s : RuleSet} {p : Plan} {a t : String}

section Mentions

theorem mem_requirements (hs : s.IsAccepted) :
    t ∈ s.requirements a ↔ ∃ d ∈ s.documents, d.policy = a ∧ t ∈ d.prerequisites := by
  unfold requirements
  cases hfind : s.documents.find? fun d => d.policy = a with
  | none =>
      have hnone := List.find?_eq_none.mp hfind
      refine ⟨fun h => (List.not_mem_nil h).elim, ?_⟩
      rintro ⟨d, hd, rfl, -⟩
      exact absurd (decide_eq_true rfl) (hnone d hd)
  | some e =>
      have he := List.mem_of_find?_eq_some hfind
      have hpolicy : e.policy = a := by simpa using List.find?_some hfind
      rw [Option.map_some, Option.getD_some, List.mem_eraseDups]
      refine ⟨fun ht => ⟨e, he, hpolicy, ht⟩, ?_⟩
      rintro ⟨d, hd, hda, ht⟩
      rwa [List.inj_on_of_nodup_map hs.policies he hd (hpolicy.trans hda.symm)]

theorem nodup_requirements : (s.requirements a).Nodup := by
  unfold requirements
  cases s.documents.find? fun d => d.policy = a with
  | none => exact List.nodup_nil
  | some d => exact nodup_eraseDups_texts _

theorem mem_applications :
    t ∈ s.applications a ↔ ∃ d ∈ s.documents, d.policy = a ∧ t ∈ d.appliesTo ∧ t ≠ a := by
  simp only [applications, List.mem_filter, List.mem_flatMap, List.mem_eraseDups,
    decide_eq_true_eq, and_assoc]
  constructor
  · rintro ⟨⟨d, hd, hda, ht⟩, hne⟩
    exact ⟨d, hd, hda, ht, hne⟩
  · rintro ⟨d, hd, hda, ht, hne⟩
    exact ⟨⟨d, hd, hda, ht⟩, hne⟩

theorem nodup_applications (hs : s.IsAccepted) : (s.applications a).Nodup := by
  refine List.Nodup.filter _ ?_
  by_cases ha : ∃ d ∈ s.documents, d.policy = a
  · obtain ⟨d, hd, rfl⟩ := ha
    rw [filter_policy hs.policies hd, List.flatMap_singleton]
    exact nodup_eraseDups_texts _
  · rw [List.filter_eq_nil_iff.mpr fun d hd hda => ha ⟨d, hd, of_decide_eq_true hda⟩]
    exact List.nodup_nil

end Mentions

section Links

/-- The links of a policy to other policies, as they are drawn. -/
def linkDrafts (s : RuleSet) (a : String) : List Draft :=
  (s.requirements a).map (fun t => ⟨Node.policyKey a, Node.policyKey t, .requires, .plain⟩) ++
    ((s.applications a).map (fun t => ⟨Node.policyKey a, Node.policyKey t, .appliesTo, .plain⟩) ++
      (s.foreignClauses a).map fun c =>
        ⟨Node.policyKey a, Node.policyKey ((s.holder? c).getD ""), .appliesTo, .via c⟩)

theorem nodup_linkDrafts (hs : s.IsAccepted) : (s.linkDrafts a).Nodup := by
  refine List.nodup_append'.mpr ⟨?_, List.nodup_append'.mpr ⟨?_, ?_, ?_⟩, ?_⟩
  · exact nodup_requirements.map fun t u h => Node.policyKey_inj.mp (congrArg Draft.target h)
  · exact (nodup_applications hs).map fun t u h =>
      Node.policyKey_inj.mp (congrArg Draft.target h)
  · exact (nodup_citedBy.filter _).map fun c e h => Label.via.inj (congrArg Draft.label h)
  · intro x hx hx'
    obtain ⟨t, -, rfl⟩ := List.mem_map.mp hx
    obtain ⟨c, -, hc⟩ := List.mem_map.mp hx'
    cases congrArg Draft.label hc
  · intro x hx hx'
    obtain ⟨t, -, rfl⟩ := List.mem_map.mp hx
    rcases List.mem_append.mp hx' with hx' | hx' <;> obtain ⟨u, -, hu⟩ := List.mem_map.mp hx' <;>
      cases congrArg Draft.relation hu

/-- The documents that mention others are those of the rule set. -/
theorem mentions_iff (hp : s.plan = .ok p) {x : Draft} :
    (∃ d ∈ p.documents, d.policy = a ∧ x ∈ Plan.mentionDrafts d) ↔
      ∃ d ∈ s.documents, d.policy = a ∧ x ∈ Plan.mentionDrafts d := by
  by_cases hnone : s.documents = []
  · have hbare := (documents_of_bare hp hnone).2
    rw [hnone]
    refine ⟨?_, fun ⟨d, hd, _⟩ => (List.not_mem_nil hd).elim⟩
    rintro ⟨d, hd, -, hx⟩
    rw [(hbare d hd).mentionDrafts] at hx
    exact (List.not_mem_nil hx).elim
  · rw [documents_of_plan hp hnone]

/-- The rules that a plan places in a policy are those of its trees. -/
theorem mem_placed_iff_mem_rulesOf (hs : s.IsAccepted) (hp : s.plan = .ok p) {r : Rule} :
    (a, r) ∈ p.placed ↔ r ∈ s.rulesOf a := by
  rw [PolicyGraph.mem_placed_iff hs hp, rulesOf, treesOf, ← Plan.rootsOf_eq hs hp,
    rootsOf_eq_filter hp, Rule.mem_walkAll]
  simp only [List.mem_filter, decide_eq_true_eq, and_assoc]

/-- What links a policy to others: what its document mentions, and the clauses of others that its
rules cite. -/
theorem mem_linkDrafts (hs : s.IsAccepted) {x : Draft} : x ∈ s.linkDrafts a ↔
    (∃ d ∈ s.documents, d.policy = a ∧ x ∈ Plan.mentionDrafts d) ∨
    ∃ r ∈ s.rulesOf a, ∃ b, s.holder? r.head.clause = some b ∧ b ≠ a ∧
      x = ⟨Node.policyKey a, Node.policyKey b, .appliesTo, .via r.head.clause⟩ := by
  simp only [linkDrafts, List.mem_append, List.mem_map, mem_requirements hs, mem_applications,
    foreignClauses, List.mem_filter, mem_citedBy, Plan.mem_mentionDrafts, Option.any_eq_true,
    decide_eq_true_eq]
  constructor
  · rintro (⟨t, ⟨d, hd, rfl, ht⟩, rfl⟩ | ⟨t, ⟨d, hd, rfl, ht, hne⟩, rfl⟩ |
      ⟨c, ⟨⟨r, hr, rfl⟩, b, hb, hne⟩, rfl⟩)
    · exact .inl ⟨d, hd, rfl, .inl ⟨t, ht, rfl⟩⟩
    · exact .inl ⟨d, hd, rfl, .inr ⟨t, ht, hne, rfl⟩⟩
    · exact .inr ⟨r, hr, b, hb, hne, by rw [hb, Option.getD_some]⟩
  · rintro (⟨d, hd, rfl, ⟨t, ht, rfl⟩ | ⟨t, ht, hne, rfl⟩⟩ | ⟨r, hr, b, hb, hne, rfl⟩)
    · exact .inl ⟨t, ⟨d, hd, rfl, ht⟩, rfl⟩
    · exact .inr (.inl ⟨t, ⟨d, hd, rfl, ht, hne⟩, rfl⟩)
    · exact .inr (.inr ⟨_, ⟨⟨r, hr, rfl⟩, b, hb, hne⟩, by rw [hb, Option.getD_some]⟩)

theorem isLink_of_mem_linkDrafts {x : Draft} (hx : x ∈ s.linkDrafts a) :
    x.relation.isLink = true ∧ x.source = Node.policyKey a ∧ ∃ t, x.target = Node.policyKey t := by
  simp only [linkDrafts, List.mem_append, List.mem_map] at hx
  rcases hx with ⟨t, -, rfl⟩ | ⟨t, -, rfl⟩ | ⟨c, -, rfl⟩ <;> exact ⟨rfl, rfl, _, rfl⟩

/-- The links of a policy are drawn, and no others. -/
theorem mem_drafts_iff_mem_linkDrafts (hs : s.IsAccepted) (hp : s.plan = .ok p) {x : Draft}
    (hlink : x.relation.isLink = true) (hx : x.source = Node.policyKey a) :
    x ∈ p.drafts ↔ x ∈ s.linkDrafts a := by
  rw [Plan.mem_drafts_of_isLink hlink hx, mentions_iff hp, mem_linkDrafts hs]
  simp only [mem_placed_iff_mem_rulesOf hs hp, owner?_eq_holder? hs hp]

end Links

section Clauses

/-- Without documents nothing is said of clauses. -/
theorem eq_of_mem_declare {owned : List String} {rs : List Rule} {d : Document}
    (hd : d ∈ declare owned rs) {c : Clause} (hc : c ∈ d.clauses) : c = { id := c.id } := by
  induction rs generalizing owned with
  | nil => cases hd
  | cons r rs ih =>
      rcases List.mem_cons.mp hd with rfl | hd
      · obtain ⟨k, -, rfl⟩ := List.mem_map.mp hc
        rfl
      · exact ih hd

/-- The clauses of a policy in a plan. -/
def plannedClauses (p : Plan) (a : String) : List Clause :=
  (p.documents.filter fun d => d.policy = a).flatMap Document.clauses

theorem mem_plannedClauses {c : String} :
    c ∈ (plannedClauses p a).map Clause.id ↔ (c, a) ∈ ownedClauses p.documents := by
  simp only [plannedClauses, ownedClauses, List.mem_map, List.mem_flatMap, List.mem_filter,
    decide_eq_true_eq, Prod.mk.injEq]
  constructor
  · rintro ⟨k, ⟨d, ⟨hd, rfl⟩, hk⟩, rfl⟩
    exact ⟨d, hd, k, hk, rfl, rfl⟩
  · rintro ⟨d, hd, k, hk, rfl, rfl⟩
    exact ⟨k, ⟨d, ⟨hd, rfl⟩, hk⟩, rfl⟩

theorem nodup_plannedClauses (hs : s.IsAccepted) (hp : s.plan = .ok p) :
    ((plannedClauses p a).map Clause.id).Nodup := by
  have hall := nodup_ownedClauses hs hp
  simp only [ownedClauses, List.map_flatMap, List.map_map, Function.comp_def] at hall
  rw [plannedClauses, List.map_flatMap]
  exact hall.sublist (List.filter_sublist.flatMap _)

/-- A plan gives a policy the clauses that the rule set does. -/
theorem plannedClauses_perm (hs : s.IsAccepted) (hp : s.plan = .ok p) :
    (plannedClauses p a).Perm (s.clausesOwnedBy a) := by
  unfold clausesOwnedBy
  by_cases hnone : s.documents = []
  · rw [hnone, List.isEmpty_nil, if_pos rfl]
    have hplain : (plannedClauses p a) =
        ((plannedClauses p a).map Clause.id).map fun c => { id := c } := by
      rw [List.map_map]
      refine (List.map_id _).symm.trans (List.map_congr_left fun c hc => ?_)
      obtain ⟨d, hd, hc⟩ := List.mem_flatMap.mp hc
      have hd := (List.mem_filter.mp hd).1
      rw [(documents_of_bare hp hnone).1] at hd
      exact eq_of_mem_declare hd hc
    rw [hplain]
    refine List.Perm.map _ ((List.perm_ext_iff_of_nodup (nodup_plannedClauses hs hp)
      (nodup_citedBy.filter _)).mpr fun c => ?_)
    rw [mem_plannedClauses, ← holder?_eq_some_iff hs hp, List.mem_filter, decide_eq_true_eq]
    exact ⟨fun hc => ⟨mem_citedBy_of_holder? hnone hc, hc⟩, And.right⟩
  · rw [if_neg (by simpa using hnone), plannedClauses, documents_of_plan hp hnone]

end Clauses

end RuleSet

namespace PolicyGraph

variable {cfg : Settings} {g : PolicyGraph} {s : RuleSet} {p : Plan} {a : String}

/-- A policy that no document declares has nothing in a plan. -/
theorem filter_documents_undeclared (ha : a ∉ p.documents.map Document.policy) :
    (p.documents.filter fun d => d.policy = a) = [] :=
  List.filter_eq_nil_iff.mpr fun _ hd hda =>
    ha (List.mem_map.mpr ⟨_, hd, of_decide_eq_true hda⟩)

section Trees

/-- The trees of a policy are those of its rules. -/
theorem IsDrawnFrom.reachOf_eq (h : g.IsDrawnFrom cfg p) (hs : s.IsAccepted)
    (hp : s.plan = .ok p) (ha : g.HasPolicy a) :
    g.reachOf (.str a) = .ok ((s.treesOf a).map (Reach.ofTree cfg a)) := by
  rw [RuleSet.treesOf, ← Plan.rootsOf_eq hs hp, reachOf]
  by_cases hdeclared : a ∈ p.documents.map Document.policy
  · obtain ⟨d, hd, rfl⟩ := List.mem_map.mp hdeclared
    obtain ⟨bs, hbs, hall⟩ := h.policyRoots_policy hd
    rw [hbs, ok_bind]
    refine mapM_eq_ok_map_of_forall₂ hall fun r hr b hb => ?_
    have hplaced := Plan.placed_root hd hr
    rw [hb.1, reach]
    exact h.hasTreesOf.reachTo_eq hplaced (h.hasTreesOf.depth_le_depthBound hplaced)
  · obtain ⟨n, hn, -⟩ := ha
    have hnone : p.rootsOf a = [] := by
      rw [Plan.rootsOf, List.filter_eq_nil_iff.mpr, List.map_nil]
      intro r hr hra
      exact hdeclared (of_decide_eq_true hra ▸ (RuleSet.plan_policies hs hp).2 r hr)
    rw [hnone, h.policyRoots_undeclared hdeclared (hasNode_of_node? hn)]
    rfl

end Trees

section Clauses

/-- A clause has one node. -/
theorem IsDrawnFrom.nodesOfClause_eq (h : g.IsDrawnFrom cfg p) (hs : s.IsAccepted)
    (hp : s.plan = .ok p) {d : Document} (hd : d ∈ p.documents) {c : Clause}
    (hc : c ∈ d.clauses) : ((g.nodesOfClause (.str c.id)).filter fun n => n.kind = .clause) =
      [Plan.clauseNode d.policy c] := by
  have hmem : Plan.clauseNode d.policy c ∈ g.nodesOfKind .clause := by
    rw [h.nodesOfKind_clause hs hp]
    exact List.mem_flatMap.mpr ⟨d, hd, List.mem_map_of_mem hc⟩
  have hmem := (List.mem_filter.mp hmem).1
  rw [nodesOfClause, g.indexed, Index.of, Grouping.members_ofList, List.filter_filter]
  refine filter_eq_singleton (h.isLegible.distinct.of_map _) hmem fun n hn => ?_
  constructor
  · intro hboth
    obtain ⟨hkind, hname⟩ := Bool.and_eq_true_iff.mp hboth
    obtain ⟨e, -, k, -, rfl⟩ := h.eq_of_clause hn (of_decide_eq_true hkind)
    refine h.isLegible.eq_of_id hn hmem ?_
    have hid : Json.alike (.str k.id) (.str c.id) = true := by simpa using hname
    rw [Json.alike_str_right, Json.str.injEq] at hid
    change Json.str (Node.clauseKey k.id) = .str (Node.clauseKey c.id)
    rw [hid]
  · rintro rfl
    rw [Plan.clauseNode_clause?]
    simp [Plan.clauseNode]

/-- A policy that is only mentioned contains nothing. -/
theorem IsDrawnFrom.clausesOf_undeclared (h : g.IsDrawnFrom cfg p)
    (ha : a ∉ p.documents.map Document.policy)
    (hnode : g.hasNode (.str (Node.policyKey a)) = true) : g.clausesOf (.str a) = .ok [] := by
  obtain ⟨es, hes, hall⟩ := h.outEdges_forall₂ hnode .contains
  have hnone : (p.drawn.filter fun d => decide (d.relation = .contains) &&
      decide (d.source = Node.policyKey a)) = [] := by
    refine List.filter_eq_nil_iff.mpr fun x hx hboth => ?_
    obtain ⟨hrelation, hsource⟩ := Bool.and_eq_true_iff.mp hboth
    have hsource := of_decide_eq_true hsource
    rcases (Plan.mem_drafts_contains (of_decide_eq_true hrelation)).mp (Plan.mem_drawn.mp hx) with
      ⟨d, hd, c, -, rfl⟩ | ⟨q, -, rfl⟩
    · exact ha (Node.policyKey_inj.mp hsource ▸ List.mem_map_of_mem hd)
    · exact Node.policyKey_ne_clauseKey _ _ hsource.symm
  rw [hnone, List.forall₂_nil_left_iff] at hall
  rw [clausesOf, Node.policyId_str, hes, hall]
  rfl

/-- The clauses of a policy, each with its node. -/
theorem IsDrawnFrom.clausesOf_planned (h : g.IsDrawnFrom cfg p) (hs : s.IsAccepted)
    (hp : s.plan = .ok p) (ha : g.HasPolicy a) :
    g.clausesOf (.str a) = .ok ((RuleSet.plannedClauses p a).map fun c => .str c.id) ∧
      g.clauseNodesOf (.str a) = .ok ((RuleSet.plannedClauses p a).map (Plan.clauseNode a)) := by
  by_cases hdeclared : a ∈ p.documents.map Document.policy
  · obtain ⟨d, hd, rfl⟩ := List.mem_map.mp hdeclared
    have hnodup := RuleSet.nodup_plannedClauses (a := d.policy) hs hp
    rw [RuleSet.plannedClauses, RuleSet.filter_policy h.sound.policies hd,
      List.flatMap_singleton] at hnodup ⊢
    have hclauses := h.clausesOf_eq hd
    rw [Plan.firstTexts_eq_self hnodup (by simp), List.map_map] at hclauses
    refine ⟨hclauses, ?_⟩
    rw [clauseNodesOf, hclauses, map_ok, List.flatMap_map, List.map_eq_flatMap]
    exact congrArg Except.ok (List.flatMap_congr fun c hc => h.nodesOfClause_eq hs hp hd hc)
  · obtain ⟨n, hn, -⟩ := ha
    rw [RuleSet.plannedClauses, filter_documents_undeclared hdeclared, clauseNodesOf,
      h.clausesOf_undeclared hdeclared (hasNode_of_node? hn)]
    exact ⟨rfl, rfl⟩

end Clauses

section Links

/-- The links of a policy are counted. -/
theorem IsDrawnFrom.linkCount_eq (h : g.IsDrawnFrom cfg p) (hs : s.IsAccepted)
    (hp : s.plan = .ok p) (ha : g.HasPolicy a) :
    g.linkCount (.str a) = .ok (s.linkDrafts a).length := by
  obtain ⟨n, hn, -⟩ := ha
  rw [linkCount, Node.policyId_str, outEdges, node_eq_ok.mpr hn, map_ok, map_ok, ofRelation,
    outgoing_members, List.filter_filter, h.edges]
  refine congrArg Except.ok ?_
  have hnumber : ∀ (x : Draft) (n : Nat),
      ((x.toEdge n).relation.isLink && (g.targetOf? .policy (x.toEdge n)).isSome &&
        (x.toEdge n).source.alike (.str (Node.policyKey a))) =
      (x.relation.isLink && (g.targetOf? .policy (x.toEdge 0)).isSome &&
        decide (x.source = Node.policyKey a)) := by
    intro x n
    change (x.relation.isLink && (g.targetOf? .policy (x.toEdge n)).isSome &&
      (Json.str x.source).alike (.str (Node.policyKey a))) = _
    rw [Json.alike_str]
    rfl
  refine (Draft.filter_number hnumber 0 p.drawn).length_eq.symm.trans ?_
  refine List.Perm.length_eq ((List.perm_ext_iff_of_nodup ((Draft.firsts_nodup _ _).filter _)
    (RuleSet.nodup_linkDrafts hs)).mpr fun x => ?_)
  rw [List.mem_filter, ← Plan.drawn, Plan.mem_drawn, Bool.and_eq_true, Bool.and_eq_true,
    decide_eq_true_eq]
  constructor
  · rintro ⟨hx, ⟨hlink, -⟩, hsource⟩
    exact (RuleSet.mem_drafts_iff_mem_linkDrafts hs hp hlink hsource).mp hx
  · intro hx
    obtain ⟨hlink, hsource, t, ht⟩ := RuleSet.isLink_of_mem_linkDrafts hx
    have hdrawn := (RuleSet.mem_drafts_iff_mem_linkDrafts hs hp hlink hsource).mpr hx
    obtain ⟨m, hm, hid⟩ := List.mem_map.mp (h.nodes ▸ (Plan.ends_mem_nodes h.sound hdrawn).2)
    have hnode := h.isLegible.node?_of_mem hm hid
    have hkind := h.isLegible.key m hm t (hid.trans (congrArg Json.str ht))
    exact ⟨hdrawn, ⟨hlink, by rw [targetOf?_eq_some hnode hkind]; rfl⟩, hsource⟩

end Links

end PolicyGraph
end Eligibility
