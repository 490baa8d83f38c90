import Eligibility.Conflict.Scope
import Eligibility.Proofs.Legibility
import Eligibility.Proofs.RequirementChains
/-!
# Policies that share a scope

**Links.**  The links of a policy are collected from the edges at its node.  Another
policy is among them exactly where an edge that links policies joins the two, in
either direction.

**Results.**
* `exists_linkedPolicies`: the links of a policy.
* `checkScope_cases`: two policies share a scope, or it is said why not.
* `checkScope_eq_ok_iff`, `checkScope_swap`: when two policies share a scope.
-/

namespace Eligibility

/-- Whether an edge links two policies, in either direction. -/
def Edge.Links (e : Edge) (a b : String) : Prop :=
  e.relation.isLink = true ∧
    (e.source = .str (Node.policyKey a) ∧ e.target = .str (Node.policyKey b) ∨
      e.source = .str (Node.policyKey b) ∧ e.target = .str (Node.policyKey a))

/-- Whether a draft links two policies, in either direction. -/
def Draft.Links (d : Draft) (a b : String) : Prop :=
  d.relation.isLink = true ∧
    (d.source = Node.policyKey a ∧ d.target = Node.policyKey b ∨
      d.source = Node.policyKey b ∧ d.target = Node.policyKey a)

instance (d : Draft) (a b : String) : Decidable (d.Links a b) :=
  inferInstanceAs (Decidable (_ ∧ (_ ∧ _ ∨ _ ∧ _)))

theorem Draft.links_toEdge (d : Draft) {n : Nat} {a b : String} :
    (d.toEdge n).Links a b ↔ d.Links a b := by
  simp [Edge.Links, Draft.Links, Draft.toEdge]

namespace PolicyGraph

/-- Whether an edge of a graph links two policies. -/
def IsLinked (g : PolicyGraph) (a b : String) : Prop := ∃ e ∈ g.edges, e.Links a b

/-- Whether a graph has a node for a policy. -/
def HasPolicy (g : PolicyGraph) (a : String) : Prop :=
  ∃ n, g.node? (.str (Node.policyKey a)) = some n ∧ n.kind = .policy

variable {cfg : Settings} {g : PolicyGraph} {p : Plan} {a b : String}

/-- Whether an edge of a relation links two policies. -/
def IsLinkedBy (g : PolicyGraph) (r : Relation) (a b : String) : Prop :=
  ∃ e ∈ g.edges, e.relation = r ∧ e.Links a b

theorem isLinked_iff_exists : g.IsLinked a b ↔ ∃ r, g.IsLinkedBy r a b := by
  constructor
  · rintro ⟨e, he, hlinks⟩
    exact ⟨e.relation, e, he, rfl, hlinks⟩
  · rintro ⟨r, e, he, -, hlinks⟩
    exact ⟨e, he, hlinks⟩

/-- Policies are linked by a requirement where one of them requires the other one. -/
theorem isLinkedBy_requires : g.IsLinkedBy .requires a b ↔ g.Requires a b ∨ g.Requires b a := by
  constructor
  · rintro ⟨e, he, hr, -, hends | hends⟩
    · exact .inl ⟨e, he, hr, hends⟩
    · exact .inr ⟨e, he, hr, hends⟩
  · rintro (⟨e, he, hr, hends⟩ | ⟨e, he, hr, hends⟩)
    · exact ⟨e, he, hr, by simp [hr, Relation.isLink], .inl hends⟩
    · exact ⟨e, he, hr, by simp [hr, Relation.isLink], .inr hends⟩

theorem IsLinked.symm (h : g.IsLinked a b) : g.IsLinked b a := by
  obtain ⟨e, he, hlink, hends⟩ := h
  exact ⟨e, he, hlink, hends.symm⟩

theorem IsDrawnFrom.isLinked_iff (h : g.IsDrawnFrom cfg p) :
    g.IsLinked a b ↔ ∃ d ∈ p.drafts, d.Links a b := by
  constructor
  · rintro ⟨e, he, hlinks⟩
    obtain ⟨n, d, hd, rfl⟩ := h.mem_edges.mp he
    exact ⟨d, Plan.mem_drawn.mp (List.mem_of_getElem? hd), d.links_toEdge.mp hlinks⟩
  · rintro ⟨d, hd, hlinks⟩
    obtain ⟨n, he⟩ := h.exists_edge hd
    exact ⟨_, he, d.links_toEdge.mpr hlinks⟩

theorem IsDrawnFrom.hasPolicy (h : g.IsDrawnFrom cfg p) {d : Document} (hd : d ∈ p.documents) :
    g.HasPolicy d.policy :=
  ⟨_, h.node?_policy hd, rfl⟩

theorem IsLegible.hasPolicy (h : g.IsLegible) {n : Node} (hn : n ∈ g.nodes)
    (hkind : n.kind = .policy) : ∃ a, n.policy = .str a ∧ g.HasPolicy a := by
  obtain ⟨a, ha, hid⟩ := h.policy n hn hkind
  exact ⟨a, ha, n, h.node?_of_mem hn hid, hkind⟩

/-- The declared policies have nodes. -/
theorem IsLegible.exists_of_mem_policyIds (h : g.IsLegible) {n : Name}
    (hn : n ∈ g.policyIds false) : ∃ a, n = .str a ∧ g.HasPolicy a := by
  obtain ⟨m, hm, rfl⟩ := List.mem_map.mp hn
  have hm := (List.mem_filter.mp (List.mem_of_mem_filter hm))
  exact h.hasPolicy hm.1 (by simpa using hm.2)

/-- The node of a policy names it. -/
theorem IsLegible.exists_policy (h : g.IsLegible) {x : String} {n : Node}
    (hn : g.node? (.str x) = some n) (hkind : n.kind = .policy) :
    ∃ c, n.policy = .str c ∧ x = Node.policyKey c := by
  obtain ⟨hmem, hid⟩ := node?_spec hn
  obtain ⟨a, ha, hkey⟩ := h.policy n hmem hkind
  exact ⟨a, ha, Json.str.inj (hid.symm.trans hkey)⟩

/-- The other end of an edge at a policy tells which policies the edge links it to. -/
theorem IsLegible.exists_otherEnd (h : g.IsLegible) {e : Edge} (he : e ∈ g.edges)
    (hlink : e.relation.isLink = true)
    (hself : e.source = .str (Node.policyKey a) ∨ e.target = .str (Node.policyKey a)) :
    ∃ x : String,
      (if e.source.same (.str (Node.policyKey a)) then e.target else e.source) = .str x ∧
        ∀ b, b ≠ a → (e.Links a b ↔ x = Node.policyKey b) := by
  obtain ⟨s, t, hsource, htarget⟩ := h.ends e he
  simp only [Edge.Links, and_iff_right hlink, hsource, htarget, Json.str.injEq, Json.same_str,
    decide_eq_true_eq] at hself ⊢
  by_cases hs : s = Node.policyKey a
  · refine ⟨t, by rw [if_pos hs], fun b hb => ?_⟩
    constructor
    · rintro (⟨-, ht⟩ | ⟨hs', -⟩)
      · exact ht
      · exact absurd (Node.policyKey_inj.mp (hs'.symm.trans hs)) hb
    · exact fun ht => .inl ⟨hs, ht⟩
  · have ht : t = Node.policyKey a := hself.resolve_left hs
    refine ⟨s, by rw [if_neg hs], fun b hb => ?_⟩
    constructor
    · rintro (⟨hs', -⟩ | ⟨hs', -⟩)
      · exact absurd hs' hs
      · exact hs'
    · exact fun hs' => .inr ⟨hs', ht⟩

/-- An edge at a policy notes its relation for the policy that it links to the policy, and for no
other one. -/
theorem IsLegible.exists_noteLink (h : g.IsLegible) {e : Edge} (he : e ∈ g.edges)
    (hself : e.source = .str (Node.policyKey a) ∨ e.target = .str (Node.policyKey a)) (ls : Links) :
    ∃ ls', g.noteLink (.str (Node.policyKey a)) ls e = .ok ls' ∧
      ∀ b, b ≠ a → g.HasPolicy b → ∀ r,
        (r ∈ ls'.members (.str b) ↔ r ∈ ls.members (.str b) ∨ e.relation = r ∧ e.Links a b) := by
  unfold noteLink
  by_cases hlink : e.relation.isLink = true
  swap
  · exact ⟨ls, by rw [if_pos (by simpa using hlink)], fun b _ _ r => by simp [Edge.Links, hlink]⟩
  obtain ⟨x, hx, hlinks⟩ := h.exists_otherEnd he hlink hself
  rw [if_neg (by simp [hlink])]
  simp only [hx]
  cases hn : g.node? (.str x) with
  | none =>
      refine ⟨ls, rfl, fun b hb hpolicy r => ?_⟩
      have hnot : ¬ e.Links a b := by
        rw [hlinks b hb]
        rintro rfl
        obtain ⟨m, hm, -⟩ := hpolicy
        rw [hn] at hm
        cases hm
      simp [hnot]
  | some m =>
      by_cases hskip : m.kind ≠ .policy ∨ (Json.str x).same (.str (Node.policyKey a)) = true
      · refine ⟨ls, by simp only [hskip, if_true], fun b hb hpolicy r => ?_⟩
        have hnot : ¬ e.Links a b := by
          rw [hlinks b hb]
          rintro rfl
          obtain ⟨n, hm, hkind⟩ := hpolicy
          obtain rfl : m = n := Option.some.inj (hn.symm.trans hm)
          rcases hskip with hkind' | hsame
          · exact hkind' hkind
          · exact hb (Node.policyKey_inj.mp (by simpa using hsame))
        simp [hnot]
      · obtain ⟨hkind, -⟩ := not_or.mp hskip
        obtain ⟨c, hc, rfl⟩ := h.exists_policy hn (by simpa using hkind)
        simp only [hskip, if_false, hc]
        refine ⟨_, rfl, fun b hb hpolicy r => ?_⟩
        rw [hlinks b hb, Node.policyKey_inj]
        by_cases hcb : c = b
        · subst hcb
          split
          · next hmem => exact ⟨.inl, fun hr => hr.elim id fun he => he.1 ▸ hmem⟩
          · simp [Grouping.members_add, eq_comm]
        · split
          · simp [hcb]
          · simp [Grouping.members_add, hcb]

/-- The links of a policy: the relations noted for another policy are those of the edges that link
the two. -/
theorem IsLegible.exists_linkedPolicies (h : g.IsLegible) (ha : g.HasPolicy a) :
    ∃ ls, g.linkedPolicies (.str a) = .ok ls ∧
      ∀ b, b ≠ a → g.HasPolicy b → ∀ r, (r ∈ ls.members (.str b) ↔ g.IsLinkedBy r a b) := by
  obtain ⟨n, hn, -⟩ := ha
  set es := g.index.outgoing.members (.str (Node.policyKey a)) ++
    g.index.incoming.members (.str (Node.policyKey a)) with hes
  have hmem : ∀ e, e ∈ es ↔ e ∈ g.edges ∧
      (e.source = .str (Node.policyKey a) ∨ e.target = .str (Node.policyKey a)) := by
    intro e
    simp only [hes, outgoing_members, incoming_members, List.mem_append, List.mem_filter,
      Json.alike_str_right, ← and_or_left]
  have hfold : ∀ (xs : List Edge) (ls : Links), (∀ e ∈ xs, e ∈ es) →
      ∃ ls', xs.foldlM (g.noteLink (.str (Node.policyKey a))) ls = .ok ls' ∧
        ∀ b, b ≠ a → g.HasPolicy b → ∀ r, (r ∈ ls'.members (.str b) ↔
          r ∈ ls.members (.str b) ∨ ∃ e ∈ xs, e.relation = r ∧ e.Links a b) := by
    intro xs
    induction xs with
    | nil => exact fun ls _ => ⟨ls, rfl, fun b _ _ r => by simp⟩
    | cons e xs ih =>
        intro ls hxs
        obtain ⟨he, hself⟩ := (hmem e).mp (hxs e (by simp))
        obtain ⟨ls1, hls1, hspec1⟩ := h.exists_noteLink he hself ls
        obtain ⟨ls2, hls2, hspec2⟩ := ih ls1 fun x hx => hxs x (List.mem_cons_of_mem _ hx)
        refine ⟨ls2, by rw [List.foldlM_cons, hls1]; exact hls2, fun b hb hpolicy r => ?_⟩
        rw [hspec2 b hb hpolicy, hspec1 b hb hpolicy, List.exists_mem_cons_iff, or_assoc]
  obtain ⟨ls, hls, hspec⟩ := hfold es [] fun _ he => he
  refine ⟨ls, ?_, fun b hb hpolicy r => ?_⟩
  · rw [linkedPolicies, Node.policyId_str, hasNode_of_node? hn]
    exact hls
  · rw [hspec b hb hpolicy]
    constructor
    · rintro (hnone | ⟨e, he, hlinks⟩)
      · simp [Grouping.members_nil] at hnone
      · exact ⟨e, ((hmem e).mp he).1, hlinks⟩
    · rintro ⟨e, he, hr, hlinks⟩
      exact .inr ⟨e, (hmem e).mpr ⟨he, hlinks.2.imp (·.1) (·.2)⟩, hr, hlinks⟩

/-- The relations by which two policies are linked. -/
theorem IsLegible.exists_linkedBy (h : g.IsLegible) (ha : g.HasPolicy a)
    (hb : g.HasPolicy b) :
    ∃ rs, g.linkedBy (.str a) (.str b) = .ok rs ∧ (a ≠ b → (rs = [] ↔ ¬ g.IsLinked a b) ∧
      ∀ r, r ∈ rs ↔ g.IsLinkedBy r a b) := by
  obtain ⟨ls, hls, hspec⟩ := h.exists_linkedPolicies ha
  refine ⟨ls.members (.str b), by rw [linkedBy, hls]; rfl, fun hne => ⟨?_, hspec b hne.symm hb⟩⟩
  rw [isLinked_iff_exists, List.eq_nil_iff_forall_not_mem, not_exists]
  exact forall_congr' fun r => not_congr (hspec b hne.symm hb r)

/-- The entity of a policy is a property of its node. -/
theorem entityOf_eq {n : Node} (hn : g.node? (.str (Node.policyKey a)) = some n) :
    g.entityOf (.str a) = .ok (n.get "entity_type") := by
  rw [entityOf, policyNode?, Node.policyId_str, hn]

/-- Two policies share a scope, or it is said why they do not. -/
theorem IsLegible.checkScope_cases (h : g.IsLegible) (entities : Bool)
    (ha : g.HasPolicy a) (hb : g.HasPolicy b) :
    g.checkScope entities (.str a) (.str b) = .ok () ∨
      ∃ f, g.checkScope entities (.str a) (.str b) = .error f ∧ isScopeFault f = true := by
  obtain ⟨rs, hrs, -⟩ := h.exists_linkedBy ha hb
  obtain ⟨m, hm, -⟩ := ha
  obtain ⟨n, hn, -⟩ := hb
  have hsorted : Fault.sorted [Json.str a, .str b] = .ok _ := Name.sorted_strs [a, b]
  unfold checkScope
  split
  · exact .inl rfl
  rw [hrs, Attempt.ok_bind]
  cases rs with
  | nil => exact .inr ⟨.unlinked (.str a) (.str b) _, by rw [hsorted]; rfl, rfl⟩
  | cons r rs =>
      cases entities with
      | false => exact .inl rfl
      | true =>
          simp only [List.isEmpty_cons, Bool.false_eq_true, if_false, if_true, entityOf_eq hm,
            entityOf_eq hn, Attempt.ok_bind, hsorted]
          split
          · exact .inr ⟨_, rfl, rfl⟩
          · exact .inl rfl

/-- Linked policies share a scope where their entities are the same or of no account, and only
these. -/
theorem IsLegible.checkScope_eq_ok_iff (h : g.IsLegible) (entities : Bool)
    (ha : g.HasPolicy a) (hb : g.HasPolicy b) :
    g.checkScope entities (.str a) (.str b) = .ok () ↔ a = b ∨ g.IsLinked a b ∧
      (entities = true → ∀ x, g.entityOf (.str a) = .ok x → ∀ y, g.entityOf (.str b) = .ok y →
        x.same y = true) := by
  obtain ⟨rs, hrs, hspec⟩ := h.exists_linkedBy ha hb
  obtain ⟨m, hm, -⟩ := ha
  obtain ⟨n, hn, -⟩ := hb
  have hsorted : Fault.sorted [Json.str a, .str b] = .ok _ := Name.sorted_strs [a, b]
  unfold checkScope
  by_cases hab : a = b
  · simp [hab]
    rfl
  · rw [Json.same_str, if_neg (by simpa using hab), hrs, Attempt.ok_bind]
    have hlinked := (hspec hab).1
    cases rs with
    | nil =>
        have hnot : ¬ g.IsLinked a b := hlinked.mp rfl
        rw [hsorted]
        exact iff_of_false (fun hok => by cases hok) (by simp [hab, hnot])
    | cons r rs =>
        have hyes : g.IsLinked a b := by
          by_contra hnot
          cases hlinked.mpr hnot
        cases entities with
        | false =>
            simp [hyes]
            rfl
        | true =>
            simp only [List.isEmpty_cons, Bool.false_eq_true, if_false, if_true, entityOf_eq hm,
              entityOf_eq hn, Attempt.ok_bind, hsorted, hab, hyes, Except.ok.injEq, false_or,
              true_and, forall_eq', forall_const]
            cases (m.get "entity_type").same (n.get "entity_type") <;> simp [pure, Except.pure]

/-- Without regard to entities, linked policies share a scope, and only these. -/
theorem IsLegible.checkScope_eq_ok (h : g.IsLegible) (ha : g.HasPolicy a)
    (hb : g.HasPolicy b) :
    g.checkScope false (.str a) (.str b) = .ok () ↔ a = b ∨ g.IsLinked a b := by
  rw [h.checkScope_eq_ok_iff false ha hb]
  simp

/-- Whether two declared policies share a scope does not depend on their order. -/
theorem IsDrawnFrom.checkScope_swap (h : g.IsDrawnFrom cfg p) {d e : Document}
    (hd : d ∈ p.documents) (he : e ∈ p.documents) {entities : Bool}
    (hscope : g.checkScope entities (.str d.policy) (.str e.policy) = .ok ()) :
    g.checkScope entities (.str e.policy) (.str d.policy) = .ok () := by
  rw [h.isLegible.checkScope_eq_ok_iff entities (h.hasPolicy he) (h.hasPolicy hd)]
  rw [h.isLegible.checkScope_eq_ok_iff entities (h.hasPolicy hd) (h.hasPolicy he)] at hscope
  refine hscope.imp Eq.symm fun ⟨hlinked, hsame⟩ => ⟨hlinked.symm, fun hentities x hx y hy => ?_⟩
  have hxy := hsame hentities y hy x hx
  have hentity : ∀ {d : Document} {x : Name}, d ∈ p.documents →
      g.entityOf (.str d.policy) = .ok x → ∃ s, x = .str s := by
    intro d x hd hx
    rw [entityOf_eq (h.node?_policy hd)] at hx
    exact ⟨_, (Except.ok.inj hx).symm⟩
  obtain ⟨s, rfl⟩ := hentity he hx
  obtain ⟨t, rfl⟩ := hentity hd hy
  simpa [eq_comm] using hxy

end PolicyGraph
end Eligibility
