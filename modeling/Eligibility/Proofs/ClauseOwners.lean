import Eligibility.Proofs.Clashes
import Eligibility.Proofs.Rearrangements
/-!
# Owners of clauses without documents

**Owners.**  Without documents every top-level rule stands for a policy, and a clause belongs to the
first one whose tree cites it.  Of three rules that cite one clause the second and the third one are
not linked by it, so that the order of the rules decides which policies share a scope.

**Order.**  Where no clause is cited by more than two trees, rules are linked by the clauses that
both of them cite, in any order.

**Results.**
* `links_iff_of_few`: clauses that at most two trees cite link rules in any order.
* `draws_iff_of_isLink`: policies are linked by mentions and by the clauses of other ones.
* `isLinked_iff_links`: without documents they are linked by clauses only.
* `sharesDependencies_of_bare`: rules in another order have the same dependencies.
* `sharesScopes_of_links`: they share scopes where they are linked alike.
-/

namespace Eligibility

/-- Whether a document has no entity and mentions no policy. -/
structure Document.IsBare (d : Document) : Prop where
  entity : d.entity = none
  prerequisites : d.prerequisites = []
  appliesTo : d.appliesTo = []

theorem Document.IsBare.mentionDrafts {d : Document} (h : d.IsBare) :
    Plan.mentionDrafts d = [] := by
  rw [Plan.mentionDrafts, h.prerequisites, h.appliesTo]
  rfl

namespace RuleSet

variable {s t : RuleSet} {p q : Plan}

/-- Documents that stand for top-level rules have no entity and mention no policy. -/
theorem isBare_of_mem_declare {owned : List String} {rs : List Rule} {d : Document}
    (hd : d ∈ declare owned rs) : d.IsBare := by
  induction rs generalizing owned with
  | nil => cases hd
  | cons r rs ih =>
      rcases List.mem_cons.mp hd with rfl | hd
      · exact ⟨rfl, rfl, rfl⟩
      · exact ih hd

/-- Without documents the documents of a plan stand for top-level rules. -/
theorem documents_of_bare (hp : s.plan = .ok p) (hnone : s.documents = []) :
    p.documents = declare [] s.rules ∧ ∀ d ∈ p.documents, d.IsBare := by
  have hmode := (plan_spec hp).2
  rw [if_pos hnone] at hmode
  refine ⟨hmode.1, ?_⟩
  rw [hmode.1]
  exact fun d hd => isBare_of_mem_declare hd

/-- Whether one of two top-level rules cites a clause that belongs to the other one. -/
def Links (s : RuleSet) (a b : Rule) : Prop :=
  a.id ≠ b.id ∧ ∃ c, s.holder? c = some b.id ∧ a.cites c = true ∨
    s.holder? c = some a.id ∧ b.cites c = true

/-- The owner of a clause among the documents of a plan. -/
theorem owner?_eq_holder? (hs : s.IsAccepted) (hp : s.plan = .ok p) (c : String) :
    owner? p.documents c = s.holder? c := by
  refine Option.ext fun a => ?_
  rw [holder?_eq_some_iff hs hp]
  refine ⟨mem_of_lookup, fun hmem => ?_⟩
  obtain ⟨b, hb⟩ := exists_owner? hmem
  rwa [ownedClauses_unique hs hp hmem (mem_of_lookup hb)]

theorem holder?_of_bare (hnone : s.documents = []) (c : String) :
    s.holder? c = (s.rules.find? (Rule.cites c)).map Rule.id := by
  simp [holder?, hnone]

/-- The holder of a clause without documents is a rule that cites it. -/
theorem exists_of_holder? (hnone : s.documents = []) {c a : String} (h : s.holder? c = some a) :
    ∃ r ∈ s.rules, r.id = a ∧ r.cites c = true := by
  rw [holder?_of_bare hnone, Option.map_eq_some_iff] at h
  obtain ⟨r, hr, hid⟩ := h
  exact ⟨r, List.mem_of_find?_eq_some hr, hid, List.find?_some hr⟩

/-- Where no clause is cited by more than two top-level rules, rules are linked by the clauses that
both of them cite. -/
theorem links_iff_cites (hs : s.IsAccepted) (hnone : s.documents = [])
    (hfew : ∀ c, ∀ x ∈ s.rules, ∀ y ∈ s.rules, ∀ z ∈ s.rules, x.cites c = true →
      y.cites c = true → z.cites c = true → x = y ∨ y = z ∨ x = z) {a b : Rule}
    (ha : a ∈ s.rules) (hb : b ∈ s.rules) :
    s.Links a b ↔ a.id ≠ b.id ∧ ∃ c, a.cites c = true ∧ b.cites c = true := by
  have heq : ∀ {x y : Rule}, x ∈ s.rules → y ∈ s.rules → x.id = y.id → x = y := fun hx hy hid =>
    List.inj_on_of_nodup_map (rules_ids_nodup hs) hx hy hid
  refine and_congr_right fun hne => exists_congr fun c => ⟨?_, fun ⟨hac, hbc⟩ => ?_⟩
  · rintro (⟨hholder, hcites⟩ | ⟨hholder, hcites⟩)
    · obtain ⟨r, hr, hid, hrc⟩ := exists_of_holder? hnone hholder
      exact ⟨hcites, heq hr hb hid ▸ hrc⟩
    · obtain ⟨r, hr, hid, hrc⟩ := exists_of_holder? hnone hholder
      exact ⟨heq hr ha hid ▸ hrc, hcites⟩
  · obtain ⟨r, hfind⟩ := exists_find? ha hac
    have hholder : s.holder? c = some r.id := by
      rw [holder?_of_bare hnone, hfind, Option.map_some]
    rcases hfew c a ha b hb r (List.mem_of_find?_eq_some hfind) hac hbc (List.find?_some hfind) with
      hab | hbr | har
    · exact absurd (congrArg Rule.id hab) hne
    · exact .inl ⟨hbr ▸ hholder, hac⟩
    · exact .inr ⟨har ▸ hholder, hbc⟩

/-- Clauses that at most two top-level rules cite link rules in any order. -/
theorem links_iff_of_few (hs : s.IsAccepted) (ht : t.IsAccepted) (hnone : s.documents = [])
    (hdocuments : t.documents = s.documents) (hrules : t.rules.Perm s.rules)
    (hfew : ∀ c, ∀ x ∈ s.rules, ∀ y ∈ s.rules, ∀ z ∈ s.rules, x.cites c = true →
      y.cites c = true → z.cites c = true → x = y ∨ y = z ∨ x = z) {a b : Rule}
    (ha : a ∈ s.rules) (hb : b ∈ s.rules) : s.Links a b ↔ t.Links a b := by
  rw [links_iff_cites hs hnone hfew ha hb, links_iff_cites ht (hdocuments.trans hnone) ?_
    (hrules.mem_iff.mpr ha) (hrules.mem_iff.mpr hb)]
  simpa only [hrules.mem_iff] using hfew

end RuleSet

namespace PolicyGraph

variable {cfg : Settings} {g h : PolicyGraph} {p q : Plan} {a b : String}

section Owners

/-- Bare documents and trees have dependencies on rules and thresholds only. -/
theorem dependsOn_of_bare (hbare : ∀ d ∈ p.documents, d.IsBare) (hpq : p.Rearranges q)
    {r : Relation} (hr : r.isDependency = true) {s t : String} (h : p.Draws r s t) :
    q.Draws r s t ∧ ∀ a, t ≠ Node.policyKey a := by
  obtain ⟨d, hd, rfl, rfl, rfl⟩ := h
  have hnone : ¬ p.IsDeclared d := by
    rintro (⟨e, -, c, -, rfl⟩ | ⟨x, -, hcitation⟩ | ⟨e, he, hmention⟩)
    · cases hr
    · unfold Plan.clauseDrafts at hcitation
      grind [Relation.isDependency]
    · rw [(hbare e he).mentionDrafts] at hmention
      cases hmention
  refine ⟨(hpq.draws hd).resolve_left hnone, fun a ha => ?_⟩
  rcases Plan.mem_drafts.mp hd with
    ⟨e, he, c, hc, rfl⟩ | ⟨e, -, hlink⟩ | ⟨x, hx, hown | hlink⟩ | ⟨e, he, hmention⟩
  · cases hr
  · obtain ⟨c, -, rfl⟩ := List.mem_map.mp hlink
    exact Node.conditionKey_ne_policyKey _ _ ha
  · rcases List.mem_append.mp hown with hcitation | hoperand
    · exact hnone (.citation x hx hcitation)
    · unfold Plan.operandDrafts at hoperand
      split at hoperand
      · rw [List.mem_singleton.mp hoperand] at ha
        exact Node.thresholdKey_ne_policyKey _ _ _ _ ha
      · obtain ⟨name, -, rfl⟩ := List.mem_map.mp hoperand
        exact Node.entityKey_ne_policyKey _ _ ha
      · cases hoperand
  · obtain ⟨c, -, rfl⟩ := List.mem_map.mp hlink
    exact Node.conditionKey_ne_policyKey _ _ ha
  · exact hnone (.mention e he hmention)

/-- Without documents, graphs of plans that rearrange have the same dependencies. -/
theorem sharesDependencies_of_bare (hg : g.IsDrawnFrom cfg p) (hh : h.IsDrawnFrom cfg q)
    (hpq : p.Rearranges q) (hbare : ∀ d ∈ p.documents, d.IsBare)
    (hbare' : ∀ d ∈ q.documents, d.IsBare) : g.SharesDependencies h := by
  have hnone : ∀ s a, ¬ g.DependsOn s (Node.policyKey a) := by
    intro s a hs
    obtain ⟨r, hr, hjoins⟩ := dependsOn_iff_joins.mp hs
    exact (dependsOn_of_bare hbare hpq hr (hg.joins_iff.mp hjoins)).2 a rfl
  refine ⟨fun s t => ?_, fun s a hs => absurd hs (hnone s a),
    fun s t a b hs => absurd hs (hnone s a)⟩
  rw [dependsOn_iff_joins, dependsOn_iff_joins]
  refine exists_congr fun r => and_congr_right fun hr => ?_
  rw [hg.joins_iff, hh.joins_iff]
  exact ⟨fun hd => (dependsOn_of_bare hbare hpq hr hd).1,
    fun hd => (dependsOn_of_bare hbare' hpq.symm hr hd).1⟩

/-- Policies are linked by what the document of one mentions, and by the clauses that rules of one
cite and the other one owns. -/
theorem draws_iff_of_isLink {r : Relation} (hr : r.isLink = true) :
    p.Draws r (Node.policyKey a) (Node.policyKey b) ↔
      (∃ d ∈ p.documents, d.policy = a ∧ (r = .requires ∧ b ∈ d.prerequisites ∨
        r = .appliesTo ∧ b ∈ d.appliesTo ∧ b ≠ a)) ∨
      r = .appliesTo ∧ a ≠ b ∧ ∃ x, (a, x) ∈ p.placed ∧
        RuleSet.owner? p.documents x.head.clause = some b := by
  constructor
  · rintro ⟨d, hd, rfl, hs, ht⟩
    rcases Plan.mem_drafts.mp hd with
      ⟨e, -, c, -, rfl⟩ | ⟨e, -, hlink⟩ | ⟨⟨policy, x⟩, hx, hown | hlink⟩ | ⟨e, he, hmention⟩
    · cases hr
    · obtain ⟨c, -, rfl⟩ := List.mem_map.mp hlink
      cases hr
    · rcases List.mem_append.mp hown with hcitation | hoperand
      · rcases List.mem_cons.mp hcitation with rfl | hvia
        · cases hr
        · split at hvia
          · next owner howner =>
            split_ifs at hvia with hsame
            · cases hvia
            · obtain rfl := List.mem_singleton.mp hvia
              obtain rfl := Node.policyKey_inj.mp hs
              obtain rfl := Node.policyKey_inj.mp ht
              exact .inr ⟨rfl, Ne.symm hsame, x, hx, howner⟩
          · cases hvia
      · rw [Plan.source_of_mem_operandDrafts hoperand] at hs
        exact absurd hs (Node.conditionKey_ne_policyKey _ _)
    · obtain ⟨c, -, rfl⟩ := List.mem_map.mp hlink
      cases hr
    · refine .inl ⟨e, he, ?_⟩
      rcases List.mem_append.mp hmention with hrequired | happlies
      · obtain ⟨t, hmem, rfl⟩ := List.mem_map.mp hrequired
        obtain rfl := Node.policyKey_inj.mp ht
        exact ⟨Node.policyKey_inj.mp hs, .inl ⟨rfl, (Plan.mem_firstTexts.mp hmem).1⟩⟩
      · obtain ⟨t, hmem, rfl⟩ := List.mem_map.mp happlies
        obtain ⟨hmem, hother⟩ := List.mem_filter.mp hmem
        obtain rfl := Node.policyKey_inj.mp ht
        obtain rfl := Node.policyKey_inj.mp hs
        exact ⟨rfl, .inr ⟨rfl, (Plan.mem_firstTexts.mp hmem).1, by simpa using hother⟩⟩
  · rintro (⟨d, hd, rfl, ⟨rfl, hb⟩ | ⟨rfl, hb, hne⟩⟩ | ⟨rfl, hne, x, hx, howner⟩)
    · exact ⟨⟨Node.policyKey d.policy, Node.policyKey b, .requires, .plain⟩,
        Plan.mem_drafts.mpr (.inr (.inr (.inr ⟨d, hd, List.mem_append_left _
          (List.mem_map_of_mem (Plan.mem_firstTexts.mpr ⟨hb, by simp⟩))⟩))), rfl, rfl, rfl⟩
    · exact ⟨⟨Node.policyKey d.policy, Node.policyKey b, .appliesTo, .plain⟩,
        Plan.mem_drafts.mpr (.inr (.inr (.inr ⟨d, hd, List.mem_append_right _
          (List.mem_map_of_mem (List.mem_filter.mpr
            ⟨Plan.mem_firstTexts.mpr ⟨hb, by simp⟩, by simpa using hne⟩))⟩))), rfl, rfl, rfl⟩
    · refine ⟨⟨Node.policyKey a, Node.policyKey b, .appliesTo, .via x.head.clause⟩,
        Plan.mem_drafts.mpr (.inr (.inr (.inl ⟨(a, x), hx, .inl (List.mem_append_left _ ?_)⟩))),
        rfl, rfl, rfl⟩
      rw [Plan.clauseDrafts, howner]
      simp [Ne.symm hne]

/-- Bare documents are linked by the clauses that rules of one cite and the other one owns. -/
theorem draws_link_iff (hbare : ∀ d ∈ p.documents, d.IsBare) {r : Relation}
    (hr : r.isLink = true) : p.Draws r (Node.policyKey a) (Node.policyKey b) ↔
      r = .appliesTo ∧ a ≠ b ∧ ∃ x, (a, x) ∈ p.placed ∧
        RuleSet.owner? p.documents x.head.clause = some b := by
  rw [draws_iff_of_isLink hr, or_iff_right]
  rintro ⟨d, hd, -, ⟨-, hmention⟩ | ⟨-, hmention, -⟩⟩
  · rw [(hbare d hd).prerequisites] at hmention
    cases hmention
  · rw [(hbare d hd).appliesTo] at hmention
    cases hmention

variable {s t : RuleSet}

/-- The rules that are placed in a policy are those of its trees. -/
theorem mem_placed_iff (hs : s.IsAccepted) (hp : s.plan = .ok p) {x : Rule} :
    (a, x) ∈ p.placed ↔
      ∃ r ∈ s.rules, RuleSet.policyOf? s.documents r = some a ∧ x ∈ r.walk := by
  simp only [Plan.mem_placed, RuleSet.rootsOf_eq_filter hp, List.mem_filter, decide_eq_true_eq,
    and_assoc]
  refine ⟨fun ⟨_, _, _, hroots⟩ => hroots, fun ⟨r, hr, hof, hx⟩ => ?_⟩
  have hroot : r ∈ p.rootsOf a := by
    rw [RuleSet.rootsOf_eq_filter hp, List.mem_filter]
    exact ⟨hr, by simpa using hof⟩
  obtain ⟨y, hy, -⟩ := List.mem_map.mp hroot
  obtain ⟨hy, hkey⟩ := List.mem_filter.mp hy
  obtain ⟨d, hd, hpolicy⟩ := List.mem_map.mp ((RuleSet.plan_policies hs hp).2 y hy)
  exact ⟨d, hd, hpolicy.trans (by simpa using hkey), r, hr, hof, hx⟩

/-- A rule is placed in the tree of the top-level rule that stands for its policy. -/
theorem mem_placed_iff_of_bare (hs : s.IsAccepted) (hp : s.plan = .ok p) (hnone : s.documents = [])
    {root : Rule} (hroot : root ∈ s.rules) {x : Rule} :
    (root.id, x) ∈ p.placed ↔ x ∈ root.walk := by
  simp only [mem_placed_iff hs hp, RuleSet.policyOf?, if_pos hnone, Option.some.injEq]
  constructor
  · rintro ⟨r, hr, hid, hx⟩
    exact List.inj_on_of_nodup_map (RuleSet.rules_ids_nodup hs) hr hroot hid ▸ hx
  · exact fun hx => ⟨root, hroot, rfl, hx⟩

/-- Without documents policies are linked where one cites a clause that belongs to the other. -/
theorem isLinked_iff_links (hg : g.IsDrawnFrom cfg p) (hs : s.IsAccepted) (hp : s.plan = .ok p)
    (hnone : s.documents = []) {x y : Rule} (hx : x ∈ s.rules) (hy : y ∈ s.rules) :
    g.IsLinked x.id y.id ↔ s.Links x y := by
  have hbare := (RuleSet.documents_of_bare hp hnone).2
  have hcites : ∀ {x y : Rule}, x ∈ s.rules → ((∃ z, (x.id, z) ∈ p.placed ∧
      RuleSet.owner? p.documents z.head.clause = some y.id) ↔
        ∃ c, s.holder? c = some y.id ∧ x.cites c = true) := by
    intro x y hx
    simp only [mem_placed_iff_of_bare hs hp hnone hx, RuleSet.owner?_eq_holder? hs hp,
      Rule.cites_iff, Rule.heads_eq_map_walk, List.map_map, List.mem_map, Function.comp_apply]
    constructor
    · rintro ⟨z, hz, hholder⟩
      exact ⟨_, hholder, z, hz, rfl⟩
    · rintro ⟨_, hholder, z, hz, rfl⟩
      exact ⟨z, hz, hholder⟩
  rw [isLinked_iff_exists, RuleSet.Links]
  simp only [isLinkedBy_iff_joins, hg.joins_iff]
  constructor
  · rintro ⟨r, hr, hdraws | hdraws⟩
    · obtain ⟨-, hne, hplaced⟩ := (draws_link_iff hbare hr).mp hdraws
      exact ⟨hne, ((hcites hx).mp hplaced).imp fun _ hc => .inl hc⟩
    · obtain ⟨-, hne, hplaced⟩ := (draws_link_iff hbare hr).mp hdraws
      exact ⟨Ne.symm hne, ((hcites hy).mp hplaced).imp fun _ hc => .inr hc⟩
  · rintro ⟨hne, c, hc | hc⟩
    · exact ⟨.appliesTo, rfl, .inl ((draws_link_iff hbare rfl).mpr
        ⟨rfl, hne, (hcites hx).mpr ⟨c, hc⟩⟩)⟩
    · exact ⟨.appliesTo, rfl, .inr ((draws_link_iff hbare rfl).mpr
        ⟨rfl, Ne.symm hne, (hcites hy).mpr ⟨c, hc⟩⟩)⟩

/-- Without documents the policies of a graph are the top-level rules. -/
theorem hasPolicy_iff_of_bare (hg : g.IsDrawnFrom cfg p) (hp : s.plan = .ok p)
    (hnone : s.documents = []) : g.HasPolicy a ↔ ∃ r ∈ s.rules, r.id = a := by
  obtain ⟨hdocuments, hbare⟩ := RuleSet.documents_of_bare hp hnone
  have hdeclared : g.HasPolicy a ↔ a ∈ p.documents.map Document.policy := by
    rw [hg.hasPolicy_iff, List.mem_map]
    refine exists_congr fun d => and_congr_right fun hd => ?_
    rw [(hbare d hd).prerequisites, (hbare d hd).appliesTo]
    simp [eq_comm]
  rw [hdeclared, hdocuments, RuleSet.declare_policies, List.mem_map]

/-- Without documents the clauses of a graph are those that rules cite. -/
theorem hasClause_iff_of_bare (hg : g.IsDrawnFrom cfg p) (hs : s.IsAccepted) (hp : s.plan = .ok p)
    (hnone : s.documents = []) {n : Name} :
    g.hasClause n = true ↔ ∃ r ∈ s.rules, r.cites n.display = true := by
  have hheld : (∃ d ∈ p.documents, d.lists n.display = true) ↔
      ∃ a, s.holder? n.display = some a := by
    simp only [RuleSet.holder?_eq_some_iff hs hp, RuleSet.mem_ownedClauses]
    exact ⟨fun ⟨d, hd, hlists⟩ => ⟨d.policy, d, hd, rfl, hlists⟩,
      fun ⟨_, d, hd, _, hlists⟩ => ⟨d, hd, hlists⟩⟩
  rw [hg.hasClause_iff, hheld, ← Option.isSome_iff_exists, RuleSet.holder?_of_bare hnone,
    Option.isSome_map, List.find?_isSome]

/-- Without documents all policies are about the default entity. -/
theorem entityOf_of_bare (hg : g.IsDrawnFrom cfg p) (hp : s.plan = .ok p)
    (hnone : s.documents = []) (ha : g.HasPolicy a) :
    g.entityOf (.str a) = .ok (.str cfg.defaultEntity) := by
  obtain ⟨-, hbare⟩ := RuleSet.documents_of_bare hp hnone
  obtain ⟨d, hd, hof⟩ := hg.hasPolicy_iff.mp ha
  rw [(hbare d hd).prerequisites, (hbare d hd).appliesTo] at hof
  obtain rfl : a = d.policy := by simpa using hof
  rw [entityOf_eq (hg.node?_policy hd), Plan.policyNode, (hbare d hd).entity]
  rfl

/-- Without documents, rules in another order share scopes where they are linked alike. -/
theorem sharesScopes_of_links (hg : g.IsDrawnFrom cfg p) (hh : h.IsDrawnFrom cfg q)
    (hs : s.IsAccepted) (ht : t.IsAccepted) (hp : s.plan = .ok p) (hq : t.plan = .ok q)
    (hnone : s.documents = []) (hnone' : t.documents = []) (hrules : t.rules.Perm s.rules)
    (hlinks : ∀ a ∈ s.rules, ∀ b ∈ s.rules, s.Links a b ↔ t.Links a b) : g.SharesScopes h := by
  have hsame : ∀ a, g.HasPolicy a ↔ h.HasPolicy a := fun a => by
    rw [hasPolicy_iff_of_bare hg hp hnone, hasPolicy_iff_of_bare hh hq hnone']
    simp only [hrules.mem_iff]
  have hrequires : ∀ {g : PolicyGraph} {s : RuleSet} {p : Plan}, g.IsDrawnFrom cfg p →
      s.plan = .ok p → s.documents = [] → ∀ a b, ¬ g.IsLinkedBy .requires a b := by
    intro g s p hg hp hnone a b hlinked
    have hbare := (RuleSet.documents_of_bare hp hnone).2
    rw [isLinkedBy_iff_joins, hg.joins_iff, hg.joins_iff, draws_link_iff hbare rfl,
      draws_link_iff hbare rfl] at hlinked
    simp at hlinked
  refine ⟨fun entities a b ha hb => ?_, fun a b =>
    iff_of_false (hrequires hg hp hnone a b) (hrequires hh hq hnone' a b)⟩
  have ha' := (hsame a).mp ha
  have hb' := (hsame b).mp hb
  rw [hg.isLegible.checkScope_eq_ok_iff entities ha hb,
    hh.isLegible.checkScope_eq_ok_iff entities ha' hb', entityOf_of_bare hg hp hnone ha,
    entityOf_of_bare hg hp hnone hb, entityOf_of_bare hh hq hnone' ha',
    entityOf_of_bare hh hq hnone' hb']
  obtain ⟨x, hx, rfl⟩ := (hasPolicy_iff_of_bare hg hp hnone).mp ha
  obtain ⟨y, hy, rfl⟩ := (hasPolicy_iff_of_bare hg hp hnone).mp hb
  rw [isLinked_iff_links hg hs hp hnone hx hy, isLinked_iff_links hh ht hq hnone'
    (hrules.mem_iff.mpr hx) (hrules.mem_iff.mpr hy), hlinks x hx y hy]

end Owners

end PolicyGraph
end Eligibility
