import Eligibility.Proofs.Agreement
import Eligibility.Proofs.Readings
/-!
# Plans of rules in another order

**Plans.**  Of rules in another order the plan places the same rules for the same policies, so that
it draws the same relations.  Only what it draws for clauses and for mentioned policies depends on
more than the placed rules: on the documents that list and mention them.

**Documents.**  With documents a clause belongs to the document that lists it, and a top-level rule
to the document of its clause.  The order of the rules decides nothing but positions and numbers.

**Results.**
* `rearranges_of_plan`: the plans of rules in another order.
* `Rearranges.exists_tenets`: their tenets agree.
* `connects_of_documents`: with documents graphs of rules in another order are connected alike.
-/

namespace Eligibility

namespace Plan

/-- Whether two plans declare the same policies, each with the same top-level rules in any order. -/
structure Rearranges (p q : Plan) : Prop where
  policies : (p.documents.map Document.policy).Perm (q.documents.map Document.policy)
  roots : ∀ a, (p.rootsOf a).Perm (q.rootsOf a)

variable {p q : Plan} {cfg : Settings}

theorem Rearranges.symm (h : p.Rearranges q) : q.Rearranges p :=
  ⟨h.policies.symm, fun a => (h.roots a).symm⟩

/-- The tenets of plans that rearrange agree. -/
theorem Rearranges.exists_tenets (h : p.Rearranges q) (cfg : Settings) :
    ∃ ts, (q.tenets cfg).Perm ts ∧ List.Forall₂ Tenet.Agrees (p.tenets cfg) ts := by
  have htenets : ∀ p : Plan, p.tenets cfg =
      ((p.documents.map Document.policy).filter fun a => !(p.rootsOf a).isEmpty).map fun a =>
        ⟨cfg, a, p.rootsOf a⟩ := fun p => by
    rw [tenets, List.filter_map, List.map_map]
    rfl
  have hempty : ∀ a, (q.rootsOf a).isEmpty = (p.rootsOf a).isEmpty := fun a =>
    Bool.eq_iff_iff.mpr (by
      rw [List.isEmpty_iff_length_eq_zero, List.isEmpty_iff_length_eq_zero,
        (h.roots a).length_eq])
  rw [htenets p, htenets q]
  simp only [hempty]
  refine ⟨_, (h.policies.symm.filter _).map _, ?_⟩
  rw [List.forall₂_map_left_iff, List.forall₂_map_right_iff]
  exact List.forall₂_same.mpr fun a _ => ⟨rfl, rfl, h.roots a⟩

/-- Plans that rearrange place the same rules. -/
theorem Rearranges.mem_placed (h : p.Rearranges q) {x : String × Rule} (hx : x ∈ p.placed) :
    x ∈ q.placed := by
  obtain ⟨d, hd, hpolicy, root, hroot, hr⟩ := Plan.mem_placed.mp hx
  obtain ⟨e, he, heq⟩ := List.mem_map.mp (h.policies.mem_iff.mp (List.mem_map_of_mem hd))
  exact Plan.mem_placed.mpr
    ⟨e, he, heq.trans hpolicy, root, (h.roots x.1).mem_iff.mp hroot, hr⟩

/-- What a plan draws for clauses and for mentioned policies. -/
inductive IsDeclared (p : Plan) (d : Draft) : Prop
  | clause (e : Document) (he : e ∈ p.documents) (c : Clause) (hc : c ∈ e.clauses)
      (hd : d = ⟨Node.policyKey e.policy, Node.clauseKey c.id, .contains, .plain⟩)
  | citation (x : String × Rule) (hx : x ∈ p.placed)
      (hd : d ∈ clauseDrafts p.documents x.1 x.2.head)
  | mention (e : Document) (he : e ∈ p.documents) (hd : d ∈ mentionDrafts e)

/-- A plan draws what another plan does that it rearranges, apart from clauses and mentioned
policies. -/
theorem Rearranges.draws (h : p.Rearranges q) {d : Draft} (hd : d ∈ p.drafts) :
    p.IsDeclared d ∨ q.Draws d.relation d.source d.target := by
  rcases mem_drafts.mp hd with
    ⟨e, he, c, hc, rfl⟩ | ⟨e, he, hlink⟩ | ⟨x, hx, hown | hlink⟩ | ⟨e, he, hmention⟩
  · exact .inl (.clause e he c hc rfl)
  · right
    obtain ⟨x, hx, rfl⟩ := List.mem_map.mp hlink
    obtain ⟨e', he', hpolicy⟩ := List.mem_map.mp (h.policies.mem_iff.mp (List.mem_map_of_mem he))
    have hroot := (h.roots e.policy).mem_iff.mp (List.fst_mem_of_mem_zipIdx hx)
    obtain ⟨i, hi⟩ := List.mem_iff_getElem?.mp hroot
    refine ⟨⟨Node.policyKey e.policy, Node.conditionKey x.1.id, .dependsOn, .root i⟩,
      mem_drafts.mpr (.inr (.inl ⟨e', he', ?_⟩)), rfl, rfl, rfl⟩
    rw [hpolicy]
    exact List.mem_map.mpr ⟨(x.1, i), List.mk_mem_zipIdx_iff_getElem?.mpr hi, rfl⟩
  · rcases List.mem_append.mp hown with hclause | hoperand
    · exact .inl (.citation x hx hclause)
    · exact .inr ⟨d, mem_drafts.mpr (.inr (.inr (.inl
        ⟨x, h.mem_placed hx, .inl (List.mem_append_right _ hoperand)⟩))), rfl, rfl, rfl⟩
  · exact .inr ⟨d, mem_drafts.mpr (.inr (.inr (.inl ⟨x, h.mem_placed hx, .inr hlink⟩))),
      rfl, rfl, rfl⟩
  · exact .inl (.mention e he hmention)

end Plan

namespace RuleSet

/-- The policy that a top-level rule belongs to, given the documents. -/
def policyOf? (ds : List Document) (r : Rule) : Option String :=
  if ds = [] then some r.id else owner? ds r.head.clause

variable {s t : RuleSet} {p q : Plan}

/-- The top-level rules of a policy are those that belong to it, in their order. -/
theorem rootsOf_eq_filter (h : s.plan = .ok p) (a : String) :
    p.rootsOf a = s.rules.filter fun r => decide (policyOf? s.documents r = some a) := by
  obtain ⟨hroots, hmode⟩ := plan_spec h
  have howner : ∀ x ∈ p.roots, policyOf? s.documents x.2 = some x.1 := by
    intro x hx
    unfold policyOf?
    split_ifs at hmode ⊢ with hds
    · rw [hmode.2 x hx]
    · exact hmode.2 x hx
  rw [Plan.rootsOf, ← hroots, List.filter_map]
  refine congrArg (List.map _) (List.filter_congr fun x hx => ?_)
  simp [howner x hx]

/-- Rule sets with the same documents and the same rules in another order have plans that
rearrange. -/
theorem rearranges_of_plan (hp : s.plan = .ok p) (hq : t.plan = .ok q)
    (hdocuments : t.documents = s.documents) (hrules : t.rules.Perm s.rules) :
    p.Rearranges q := by
  refine ⟨?_, fun a => ?_⟩
  · have hmode := (plan_spec hp).2
    have hmode' := (plan_spec hq).2
    rw [hdocuments] at hmode'
    split_ifs at hmode hmode'
    · rw [hmode.1, hmode'.1, declare_policies, declare_policies]
      exact (hrules.map Rule.id).symm
    · rw [hmode.1, hmode'.1]
  · rw [rootsOf_eq_filter hp, rootsOf_eq_filter hq, hdocuments]
    exact (hrules.filter _).symm

end RuleSet

namespace PolicyGraph

variable {cfg : Settings} {g h : PolicyGraph} {p q : Plan} {a : String}

section Declarations

/-- The policies of a compiled graph are those that documents declare or mention. -/
theorem IsDrawnFrom.hasPolicy_iff (hg : g.IsDrawnFrom cfg p) : g.HasPolicy a ↔
    ∃ d ∈ p.documents, a = d.policy ∨ a ∈ d.prerequisites ∨ a ∈ d.appliesTo := by
  constructor
  · rintro ⟨n, hn, hkind⟩
    obtain ⟨hmem, hid⟩ := node?_spec hn
    rcases hg.eq_of_policy hmem hkind with ⟨d, hd, rfl⟩ | ⟨d, hd, t, ht, rfl⟩
    · exact ⟨d, hd, .inl (Node.policyKey_inj.mp (Json.str.inj hid)).symm⟩
    · obtain rfl := Node.policyKey_inj.mp (Json.str.inj hid)
      exact ⟨d, hd, .inr (Plan.mem_undeclared.mp ht).1⟩
  · rintro ⟨d, hd, hof⟩
    have hkey : .str (Node.policyKey a) ∈ (p.nodes cfg).map Node.id := by
      rcases hof with rfl | hmention
      · exact Plan.policy_mem_nodes hd
      · exact Plan.mentioned_mem_nodes hd hmention
    obtain ⟨n, hn, hid⟩ := List.mem_map.mp hkey
    rw [← hg.nodes] at hn
    exact ⟨n, hg.isLegible.node?_of_mem hn hid, hg.isLegible.key n hn a hid⟩

/-- The clauses of a compiled graph are those that documents list. -/
theorem IsDrawnFrom.hasClause_iff (hg : g.IsDrawnFrom cfg p) {n : Name} :
    g.hasClause n = true ↔ ∃ d ∈ p.documents, d.lists n.display = true := by
  constructor
  · intro hn
    obtain ⟨m, hm⟩ := Option.isSome_iff_exists.mp hn
    have hm : g.node? (.str (Node.clauseKey n.display)) = some m := hm
    obtain ⟨hmem, hid⟩ := node?_spec hm
    obtain ⟨d, hd, c, hc, rfl⟩ := hg.eq_of_clause hmem (hg.isLegible.clauseKey m hmem _ hid)
    have hid : c.id = n.display := Node.clauseKey_inj.mp (Json.str.inj hid)
    exact ⟨d, hd, Document.lists_iff.mpr (hid ▸ List.mem_map_of_mem hc)⟩
  · rintro ⟨d, hd, hlists⟩
    have hkey : .str (Node.clauseKey n.display) ∈ (p.nodes cfg).map Node.id :=
      Plan.clause_mem_nodes hd hlists
    obtain ⟨m, hm, hid⟩ := List.mem_map.mp hkey
    rw [← hg.nodes] at hm
    exact hasNode_of_node? (hg.isLegible.node?_of_mem hm hid)

end Declarations

section Documents

/-- With the same documents, plans that rearrange draw the same. -/
theorem draws_of_documents (hpq : p.Rearranges q) (hdocuments : p.documents = q.documents)
    {r : Relation} {s t : String} (h : p.Draws r s t) : q.Draws r s t := by
  obtain ⟨d, hd, rfl, rfl, rfl⟩ := h
  rcases hpq.draws hd with hdeclared | hdraws
  · refine ⟨d, Plan.mem_drafts.mpr ?_, rfl, rfl, rfl⟩
    rcases hdeclared with ⟨e, he, c, hc, heq⟩ | ⟨x, hx, hcitation⟩ | ⟨e, he, hmention⟩
    · exact .inl ⟨e, hdocuments ▸ he, c, hc, heq⟩
    · exact .inr (.inr (.inl ⟨x, hpq.mem_placed hx,
        .inl (List.mem_append_left _ (hdocuments ▸ hcitation))⟩))
    · exact .inr (.inr (.inr ⟨e, hdocuments ▸ he, hmention⟩))
  · exact hdraws

/-- With the same documents, graphs of plans that rearrange are connected alike. -/
theorem connects_of_documents (hg : g.IsDrawnFrom cfg p) (hh : h.IsDrawnFrom cfg q)
    (hpq : p.Rearranges q) (hdocuments : p.documents = q.documents) : g.Connects h := by
  refine ⟨fun r s t => ?_, fun a => ?_, fun n => ?_, fun a ha => ?_⟩
  · rw [hg.joins_iff, hh.joins_iff]
    exact ⟨draws_of_documents hpq hdocuments, draws_of_documents hpq.symm hdocuments.symm⟩
  · rw [hg.hasPolicy_iff, hh.hasPolicy_iff, hdocuments]
  · rw [Bool.eq_iff_iff, hg.hasClause_iff, hh.hasClause_iff, hdocuments]
  · obtain ⟨d, hd, hof⟩ := hg.hasPolicy_iff.mp ha
    by_cases hdeclared : a ∈ p.documents.map Document.policy
    · obtain ⟨e, he, rfl⟩ := List.mem_map.mp hdeclared
      rw [entityOf_eq (hg.node?_policy he), entityOf_eq (hh.node?_policy (hdocuments ▸ he))]
      rfl
    · have hmention : a ∈ p.undeclared d := Plan.mem_undeclared.mpr ⟨hof.resolve_left fun heq =>
        hdeclared (heq ▸ List.mem_map_of_mem hd), hdeclared⟩
      have hmention' : a ∈ q.undeclared d := by
        rwa [Plan.mem_undeclared, ← hdocuments, ← Plan.mem_undeclared]
      rw [entityOf_eq (hg.node?_external hd hmention),
        entityOf_eq (hh.node?_external (hdocuments ▸ hd) hmention')]

end Documents

end PolicyGraph
end Eligibility
