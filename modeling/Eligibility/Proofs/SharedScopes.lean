import Eligibility.Conflict.Resolver
import Eligibility.Proofs.ClauseOwners
/-!
# Scopes that rule sets tell

**Rule sets.**  Which policies share a scope can be read off a rule set: two different ones do where
their documents are about the same entity and one document lists the other policy, or a rule of one
policy cites a clause that belongs to the other one.

**Memory.**  What a resolver remembers is what its graph tells.  Each question keeps that, so that
no answer depends on what was asked before.

**Results.**
* `Resolver.inScope_after`: a resolver that was asked before answers like its graph.
* `PolicyGraph.IsDrawnFrom.isLinked_iff_lists`: the policies that a rule set links.
* `RuleSet.exists_inScope_iff_sharesScope`: the policies that share a scope.
-/

namespace Eligibility

namespace Resolver

variable {r s : Resolver} {a b : String}

/-- Whether what a resolver remembers is what its graph tells. -/
def IsFaithful (r : Resolver) : Prop := ∀ k ∈ r.known, r.graph.linkedPolicies k.1 = .ok k.2

/-- Whether a resolver is another one with more to remember, all of it true to the graph. -/
structure Continues (r s : Resolver) : Prop where
  graph : s.graph = r.graph
  faithful : r.IsFaithful → s.IsFaithful

section Questions

theorem Continues.refl (r : Resolver) : r.Continues r := ⟨rfl, id⟩

theorem Continues.trans {t : Resolver} (h : r.Continues s) (h' : s.Continues t) : r.Continues t :=
  ⟨h'.graph.trans h.graph, h'.faithful ∘ h.faithful⟩

/-- Looking up links remembers what the graph tells. -/
theorem links_continues (r : Resolver) (policy : Name) : r.Continues (r.links policy).2 := by
  unfold links
  split
  · exact .refl r
  · split
    · exact .refl r
    · split
      · next ls hls =>
        refine ⟨rfl, fun hr k hk => ?_⟩
        rcases List.mem_cons.mp hk with rfl | hk
        · exact hls
        · exact hr k hk
      · exact .refl r

theorem linkedBy_continues (r : Resolver) (first second : Name) :
    r.Continues (r.linkedBy first second).2 := links_continues r first

theorem check_continues (r : Resolver) (entities : Bool) (first second : Name) :
    r.Continues (r.check entities first second).2 := by
  unfold check
  split
  · exact .refl r
  · exact linkedBy_continues r first second

/-- Every question leaves a resolver true to its graph. -/
theorem ask_continues (r : Resolver) (q : Inquiry) : r.Continues (r.ask q) := by
  cases q with
  | links first second => exact linkedBy_continues r first second
  | scope entities first second => exact check_continues r entities first second

/-- So does any number of them. -/
theorem after_continues (r : Resolver) (qs : List Inquiry) : r.Continues (r.after qs) := by
  induction qs generalizing r with
  | nil => exact .refl r
  | cons q qs ih => exact (ask_continues r q).trans (ih (r.ask q))

end Questions

section Answers

/-- The links of a policy are those that the graph tells, remembered or not. -/
theorem links_str (hr : r.IsFaithful) (a : String) :
    (r.links (.str a)).1 = r.graph.linkedPolicies (.str a) := by
  have husable : Name.isUsable (Json.str a) = true := rfl
  rw [links, if_neg (by simp [husable])]
  cases hfind : r.known.find? fun k => k.1.alike (.str a) with
  | some k =>
      have hkey : k.1 = .str a := by simpa [Json.alike_str_right] using List.find?_some hfind
      rw [← hkey, hr k (List.mem_of_find?_eq_some hfind)]
  | none => cases hls : r.graph.linkedPolicies (.str a) <;> rfl

theorem linkedBy_str (hr : r.IsFaithful) (a b : String) :
    (r.linkedBy (.str a) (.str b)).1 = r.graph.linkedBy (.str a) (.str b) := by
  rw [linkedBy, links_str hr, PolicyGraph.linkedBy]
  cases r.graph.linkedPolicies (.str a) <;> rfl

theorem check_str (hr : r.IsFaithful) (entities : Bool) (a b : String) :
    (r.check entities (.str a) (.str b)).1 = r.graph.checkScope entities (.str a) (.str b) := by
  unfold check PolicyGraph.checkScope
  split
  · rfl
  · rw [← linkedBy_str hr]
    rfl

/-- A resolver that is true to its graph answers like it. -/
theorem inScope_str (hr : r.IsFaithful) (entities : Bool) (a b : String) :
    (r.inScope entities (.str a) (.str b)).1 = r.graph.inScope entities (.str a) (.str b) := by
  rw [PolicyGraph.inScope, ← check_str hr]
  rfl

/-- A resolver that was asked before answers like its graph. -/
theorem inScope_after (g : PolicyGraph) (qs : List Inquiry) (entities : Bool) (a b : String) :
    (((Resolver.mk g []).after qs).inScope entities (.str a) (.str b)).1 =
      g.inScope entities (.str a) (.str b) := by
  have hafter := after_continues (Resolver.mk g []) qs
  rw [inScope_str (hafter.faithful (by simp [IsFaithful])), hafter.graph]

end Answers

end Resolver

namespace RuleSet

variable {cfg : Settings} {s : RuleSet} {a b : String}

/-- The entity that a policy is about: that of its document, or the default one. -/
def entityOf (cfg : Settings) (s : RuleSet) (a : String) : String :=
  match (s.documents.find? fun d => decide (d.policy = a)).bind Document.entity with
  | some e => if e = "" then cfg.defaultEntity else e
  | none => cfg.defaultEntity

/-- Whether the document of a policy lists another policy. -/
def Lists (s : RuleSet) (a b : String) : Prop :=
  ∃ d ∈ s.documents, d.policy = a ∧ (b ∈ d.prerequisites ∨ b ∈ d.appliesTo)

/-- Whether a rule in a tree of a policy cites a clause that belongs to another policy. -/
def Borrows (s : RuleSet) (a b : String) : Prop :=
  ∃ r ∈ s.rules, policyOf? s.documents r = some a ∧ ∃ x ∈ r.walk, s.holder? x.head.clause = some b

/-- Whether two policies share a scope. -/
def SharesScope (cfg : Settings) (s : RuleSet) (a b : String) : Prop :=
  a = b ∨ s.entityOf cfg a = s.entityOf cfg b ∧
    (s.Lists a b ∨ s.Lists b a ∨ s.Borrows a b ∨ s.Borrows b a)

instance (s : RuleSet) (a b : String) : Decidable (s.Lists a b) :=
  inferInstanceAs (Decidable (∃ d ∈ s.documents, _ ∧ (_ ∨ _)))

instance (s : RuleSet) (a b : String) : Decidable (s.Borrows a b) :=
  inferInstanceAs (Decidable (∃ r ∈ s.rules, _ ∧ ∃ x ∈ r.walk, _))

instance (cfg : Settings) (s : RuleSet) (a b : String) : Decidable (s.SharesScope cfg a b) :=
  inferInstanceAs (Decidable (_ ∨ _ ∧ (_ ∨ _ ∨ _ ∨ _)))

theorem SharesScope.symm (h : s.SharesScope cfg a b) : s.SharesScope cfg b a := by
  rcases h with rfl | ⟨hentity, hlink⟩
  · exact .inl rfl
  · refine .inr ⟨hentity.symm, ?_⟩
    tauto

theorem sharesScope_comm : s.SharesScope cfg a b ↔ s.SharesScope cfg b a :=
  ⟨SharesScope.symm, SharesScope.symm⟩

end RuleSet

namespace PolicyGraph

variable {cfg : Settings} {g : PolicyGraph} {p : Plan} {s : RuleSet} {a b : String}

section Plans

/-- The documents of a plan list what those of the rule set do. -/
theorem lists_iff_of_plan (hp : s.plan = .ok p) : s.Lists a b ↔
    ∃ d ∈ p.documents, d.policy = a ∧ (b ∈ d.prerequisites ∨ b ∈ d.appliesTo) := by
  by_cases hnone : s.documents = []
  · have hbare := (RuleSet.documents_of_bare hp hnone).2
    refine iff_of_false (by simp [RuleSet.Lists, hnone]) ?_
    rintro ⟨d, hd, -, hlists⟩
    simp [(hbare d hd).prerequisites, (hbare d hd).appliesTo] at hlists
  · rw [RuleSet.documents_of_plan hp hnone, RuleSet.Lists]

/-- The rules of a plan cite the clauses of other policies that those of the rule set do. -/
theorem borrows_iff_of_plan (hs : s.IsAccepted) (hp : s.plan = .ok p) : s.Borrows a b ↔
    ∃ x, (a, x) ∈ p.placed ∧ RuleSet.owner? p.documents x.head.clause = some b := by
  simp only [mem_placed_iff hs hp, RuleSet.owner?_eq_holder? hs hp, RuleSet.Borrows]
  constructor
  · rintro ⟨r, hr, hof, x, hx, hholder⟩
    exact ⟨x, ⟨r, hr, hof, hx⟩, hholder⟩
  · rintro ⟨x, ⟨r, hr, hof, hx⟩, hholder⟩
    exact ⟨r, hr, hof, x, hx, hholder⟩

/-- An edge leads from one policy to another one where the first lists the second, or borrows a
clause from it. -/
theorem IsDrawnFrom.exists_joins_iff (hg : g.IsDrawnFrom cfg p) (hs : s.IsAccepted)
    (hp : s.plan = .ok p) (hne : a ≠ b) :
    (∃ r : Relation, r.isLink = true ∧ g.Joins r (Node.policyKey a) (Node.policyKey b)) ↔
      s.Lists a b ∨ s.Borrows a b := by
  rw [lists_iff_of_plan hp, borrows_iff_of_plan hs hp]
  constructor
  · rintro ⟨r, hr, hjoins⟩
    rcases (draws_iff_of_isLink hr).mp (hg.joins_iff.mp hjoins) with
      ⟨d, hd, hpolicy, ⟨-, hb⟩ | ⟨-, hb, -⟩⟩ | ⟨-, -, hborrows⟩
    · exact .inl ⟨d, hd, hpolicy, .inl hb⟩
    · exact .inl ⟨d, hd, hpolicy, .inr hb⟩
    · exact .inr hborrows
  · rintro (⟨d, hd, hpolicy, hb | hb⟩ | hborrows)
    · exact ⟨.requires, rfl, hg.joins_iff.mpr ((draws_iff_of_isLink rfl).mpr
        (.inl ⟨d, hd, hpolicy, .inl ⟨rfl, hb⟩⟩))⟩
    · exact ⟨.appliesTo, rfl, hg.joins_iff.mpr ((draws_iff_of_isLink rfl).mpr
        (.inl ⟨d, hd, hpolicy, .inr ⟨rfl, hb, hne.symm⟩⟩))⟩
    · exact ⟨.appliesTo, rfl, hg.joins_iff.mpr ((draws_iff_of_isLink rfl).mpr
        (.inr ⟨rfl, hne, hborrows⟩))⟩

/-- Different policies are linked where one lists the other, or borrows a clause from it. -/
theorem IsDrawnFrom.isLinked_iff_lists (hg : g.IsDrawnFrom cfg p) (hs : s.IsAccepted)
    (hp : s.plan = .ok p) (hne : a ≠ b) : g.IsLinked a b ↔
      s.Lists a b ∨ s.Lists b a ∨ s.Borrows a b ∨ s.Borrows b a := by
  have hends : g.IsLinked a b ↔
      (∃ r : Relation, r.isLink = true ∧ g.Joins r (Node.policyKey a) (Node.policyKey b)) ∨
        ∃ r : Relation, r.isLink = true ∧ g.Joins r (Node.policyKey b) (Node.policyKey a) := by
    simp only [isLinked_iff_exists, isLinkedBy_iff_joins, and_or_left, exists_or]
  rw [hends, hg.exists_joins_iff hs hp hne, hg.exists_joins_iff hs hp hne.symm]
  tauto

/-- A declared policy has a node. -/
theorem IsLegible.hasPolicy_of_isInternal (hg : g.IsLegible) (ha : g.IsInternal a) :
    g.HasPolicy a := by
  obtain ⟨b, hab, hpolicy⟩ := hg.exists_of_mem_policyIds ha
  rwa [Json.str.inj hab]

/-- The entity of a declared policy is that of its document, or the default one. -/
theorem IsDrawnFrom.entityOf_internal (hg : g.IsDrawnFrom cfg p) (hp : s.plan = .ok p)
    (ha : g.IsInternal a) : g.entityOf (.str a) = .ok (.str (s.entityOf cfg a)) := by
  obtain ⟨d, hd, rfl⟩ := List.mem_map.mp (hg.isInternal_iff.mp ha)
  by_cases hnone : s.documents = []
  · rw [entityOf_of_bare hg hp hnone (hg.hasPolicy hd), RuleSet.entityOf, hnone]
    rfl
  · obtain ⟨e, hfind⟩ := exists_find? (P := fun e : Document => decide (e.policy = d.policy)) hd
      (by simp)
    obtain rfl : e = d := Plan.document_eq hg.sound (List.mem_of_find?_eq_some hfind) hd
      (by simpa using List.find?_some hfind)
    rw [entityOf_eq (hg.node?_policy hd), RuleSet.entityOf,
      ← RuleSet.documents_of_plan hp hnone, hfind]
    rfl

end Plans

section Scopes

/-- Whether two declared policies share a scope can be read off the rule set. -/
theorem IsDrawnFrom.inScope_eq (hg : g.IsDrawnFrom cfg p) (hs : s.IsAccepted)
    (hp : s.plan = .ok p) (ha : g.IsInternal a) (hb : g.IsInternal b) :
    g.inScope true (.str a) (.str b) = .ok (decide (s.SharesScope cfg a b)) := by
  have ha' := hg.isLegible.hasPolicy_of_isInternal ha
  have hb' := hg.isLegible.hasPolicy_of_isInternal hb
  have hok : g.checkScope true (.str a) (.str b) = .ok () ↔ s.SharesScope cfg a b := by
    rw [hg.isLegible.checkScope_eq_ok_iff true ha' hb',
      hg.entityOf_internal hp ha, hg.entityOf_internal hp hb, RuleSet.SharesScope]
    by_cases hab : a = b
    · simp [hab]
    · simp [hab, hg.isLinked_iff_lists hs hp hab, and_comm]
  rcases hg.isLegible.checkScope_cases true ha' hb' with hcheck | ⟨f, hf, hscope⟩
  · rw [inScope, hcheck, decide_eq_true (hok.mp hcheck)]
  · rw [inScope, hf, decide_eq_false fun hshares => by rw [hok.mpr hshares] at hf; cases hf]
    simp [hscope]

end Scopes

end PolicyGraph

/-- Two policies that a rule set declares share a scope where they are the same, or where they are
about the same entity and one of them lists the other one or cites a clause of it.  The answer is
the same in either order, and whatever was asked before. -/
theorem RuleSet.exists_inScope_iff_sharesScope {cfg : Settings} {s : RuleSet}
    (hs : s.validate cfg = .ok s) : ∃ g, (s.build cfg).outcome = .ok g ∧
      ∀ a b, g.IsInternal a → g.IsInternal b →
        ∃ answer : Bool, (answer = true ↔ s.SharesScope cfg a b) ∧ ∀ qs : List Inquiry,
          (((Resolver.mk g []).after qs).inScope true (.str a) (.str b)).1 = .ok answer ∧
          (((Resolver.mk g []).after qs).inScope true (.str b) (.str a)).1 = .ok answer := by
  have haccepted := (isAccepted_of_validate hs).1
  obtain ⟨p, g, hp, hg, hdrawn, -⟩ := exists_build_of_validate hs
  refine ⟨g, hg, fun a b ha hb => ⟨decide (s.SharesScope cfg a b), decide_eq_true_iff,
    fun qs => ⟨?_, ?_⟩⟩⟩
  · rw [Resolver.inScope_after, hdrawn.inScope_eq haccepted hp ha hb]
  · rw [Resolver.inScope_after, hdrawn.inScope_eq haccepted hp hb ha]
    simp only [RuleSet.sharesScope_comm]

namespace PolicyGraph

/-- Tenants, lodgers to whom a clause on tenants applies, and landlords, who are companies. -/
def lodging : RuleSet where
  rules := [
    .node (statusHead "a" .eq "tenant") [],
    .node { id := "b", subject := "lodger", operator := .and, clause := "l",
            confidence := some Number.one } [.node (statusHead "n" .neq "owner") []],
    .node { statusHead "o" .eq "owner" with clause := "o" } []]
  documents := [
    { policy := "tenants", entity := some "person", clauses := [{ id := "c" }] },
    { policy := "lodgers", entity := some "person", clauses := [{ id := "l" }] },
    { policy := "landlords", entity := some "company", clauses := [{ id := "o" }],
      appliesTo := ["tenants"] }]

def lodgingPlan : Plan := ⟨lodging.documents, ["tenants", "lodgers", "landlords"].zip lodging.rules⟩

theorem exists_lodging : ∃ g : PolicyGraph, lodging.validate .standard = .ok lodging ∧
    (lodging.build .standard).outcome = .ok g ∧ g.IsDrawnFrom .standard lodgingPlan :=
  exists_build (by decide +kernel) rfl (by decide +kernel)

end PolicyGraph

/-- Lodgers share a scope with tenants, whose clause they are held to; landlords do not. -/
theorem RuleSet.exists_inScope_iff_sharesScope_lodging :
    PolicyGraph.lodging.validate .standard = .ok PolicyGraph.lodging ∧
      ∃ g, (PolicyGraph.lodging.build .standard).outcome = .ok g ∧ ∀ qs : List Inquiry,
        (((Resolver.mk g []).after qs).inScope true (.str "tenants") (.str "lodgers")).1 =
          .ok true ∧
        (((Resolver.mk g []).after qs).inScope true (.str "tenants") (.str "landlords")).1 =
          .ok false := by
  obtain ⟨g, hvalid, hg, hdrawn⟩ := PolicyGraph.exists_lodging
  obtain ⟨g', hg', hscopes⟩ := exists_inScope_iff_sharesScope hvalid
  obtain rfl : g = g' := Except.ok.inj (hg.symm.trans hg')
  have hinternal : ∀ a ∈ ["tenants", "lodgers", "landlords"], g.IsInternal a := fun a ha =>
    hdrawn.isInternal_iff.mpr ha
  obtain ⟨yes, hyes, hlodgers⟩ := hscopes "tenants" "lodgers" (hinternal _ (by decide))
    (hinternal _ (by decide))
  obtain ⟨no, hno, hlandlords⟩ := hscopes "tenants" "landlords" (hinternal _ (by decide))
    (hinternal _ (by decide))
  obtain rfl : yes = true := hyes.mpr (by decide +kernel)
  obtain rfl : no = false := Bool.eq_false_iff.mpr (mt hno.mp (by decide +kernel))
  exact ⟨hvalid, g, hg, fun qs => ⟨(hlodgers qs).1, (hlandlords qs).1⟩⟩

end Eligibility
