import Eligibility.Proofs.Contradictions
import Eligibility.Proofs.Necessity
/-!
# Policies that exclude each other are reported

**Search.**  The search goes through the conditions on each variable and compares what
the trees of two policies force on them, each pair once.

**Agreement.**  In a scope that two policies share, an exclusion of the two is reported
exactly where two of their requirements are not jointly satisfiable; its severity tells
whether one of them requires the other one.  No applicant is eligible for both.

**Results.**
* `exists_exclusions_spec`: the candidates of exclusions are those of requirements that clash.
* `areExclusive_iff_reported`: when an exclusion is reported, and what it means.
-/

namespace Eligibility

/-- Whether a conflict is an exclusion of two policies. -/
def Conflict.IsExclusionOf (x : Conflict) (a b : String) : Prop :=
  x.kind = .exclusion ∧ x.policies = Name.sortTexts [a, b]

/-- Whether two policies force commitments that clash. -/
def Plan.Excludes (p : Plan) (first second : String) (a b : Commitment) : Prop :=
  a ∈ p.forcedOf first ∧ b ∈ p.forcedOf second ∧ a.Clashes b

/-- What a policy demands, as the search for exclusions keeps it. -/
def Plan.demandsOf (cfg : Settings) (p : Plan) : Name → List PolicyGraph.Demand
  | .str policy => (p.forcedOf policy).map fun c => ⟨.str policy, c.literal cfg policy⟩
  | _ => []

namespace PolicyGraph

/-- Whether two requirements of two policies are not jointly satisfiable. -/
def AreExclusive (g : PolicyGraph) (first second : String) : Prop :=
  ∃ ls ms, g.requirements (.str first) = .ok ls ∧ g.requirements (.str second) = .ok ms ∧
    ∃ l ∈ ls, ∃ m ∈ ms, ∃ c d, l.condition = .ok c ∧ m.condition = .ok d ∧
      c.jointly d = .ok false

/-- Whether one of two policies requires the other one. -/
def RequiresEither (g : PolicyGraph) (a b : String) : Prop := g.Requires a b ∨ g.Requires b a

/-- Whether a severity is that of an exclusion of two policies. -/
def IsExclusionSeverity (g : PolicyGraph) (a b : String) (s : Severity) : Prop :=
  g.RequiresEither a b ∧ s = .high ∨ ¬ g.RequiresEither a b ∧ s = .medium

end PolicyGraph

/-- A candidate of commitments of two policies. -/
structure Candidate.IsOfExclusion (g : PolicyGraph) (c : Candidate) (first second : String)
    (a b : Commitment) : Prop where
  nodes : c.IsAbout a b
  policies : c.policies = [.str first, .str second]
  entities : c.entities = true
  severity : g.IsExclusionSeverity first second c.severity

variable {cfg : Settings} {g : PolicyGraph} {p : Plan} {d e : Document} {a b : Commitment}

theorem Plan.Excludes.swap (hab : p.Excludes d.policy e.policy a b) (h : g.IsDrawnFrom cfg p)
    (hd : d ∈ p.documents) (he : e ∈ p.documents) : p.Excludes e.policy d.policy b a :=
  ⟨hab.2.1, hab.1, hab.2.2.symm (Plan.isPlaced_of_mem_forcedOf hd hab.1)
    (Plan.isPlaced_of_mem_forcedOf he hab.2.1) h.sound⟩

namespace PolicyGraph

theorem RequiresEither.symm {a b : String} (h : g.RequiresEither a b) : g.RequiresEither b a :=
  Or.symm h

theorem IsExclusionSeverity.symm {a b : String} {s : Severity} (h : g.IsExclusionSeverity a b s) :
    g.IsExclusionSeverity b a s :=
  h.imp (fun h => ⟨h.1.symm, h.2⟩) fun h => ⟨fun hr => h.1 hr.symm, h.2⟩

/-- Two policies exclude each other where their trees force commitments that clash. -/
theorem IsDrawnFrom.areExclusive_iff (h : g.IsDrawnFrom cfg p) (hd : d ∈ p.documents)
    (he : e ∈ p.documents) :
    g.AreExclusive d.policy e.policy ↔ ∃ a b, p.Excludes d.policy e.policy a b := by
  constructor
  · rintro ⟨ls, ms, hls, hms, l, hl, m, hm, c, c', hc, hc', hno⟩
    obtain rfl := Except.ok.inj (hls.symm.trans (h.hasTreesOf.requirements_eq hd))
    obtain rfl := Except.ok.inj (hms.symm.trans (h.hasTreesOf.requirements_eq he))
    obtain ⟨a, ha, rfl⟩ := List.mem_map.mp hl
    obtain ⟨b, hb, rfl⟩ := List.mem_map.mp hm
    obtain ⟨answer, hanswer, hiff⟩ := Commitment.exists_jointly
      (Plan.isPlaced_of_mem_forcedOf hd ha) (Plan.isPlaced_of_mem_forcedOf he hb) h.sound hc hc'
    exact ⟨a, b, ha, hb, hiff.mp (Except.ok.inj (hanswer.symm.trans hno))⟩
  · rintro ⟨a, b, ha, hb, hclash⟩
    obtain ⟨k, l, hk, hl, hno⟩ := id hclash
    refine ⟨_, _, h.hasTreesOf.requirements_eq hd, h.hasTreesOf.requirements_eq he, _,
      List.mem_map_of_mem ha, _, List.mem_map_of_mem hb, _, _, Commitment.condition_literal _ _ hk,
      Commitment.condition_literal _ _ hl, ?_⟩
    rw [Condition.jointly_ofConstraint, hno]
    rfl

section Search

/-- Whether a table holds what the trees of all declared policies force, by nodes. -/
def IsDemandTable (cfg : Settings) (p : Plan) (table : Grouping Demand) : Prop :=
  ∀ (k : String) (x : Demand), x ∈ table.members (.str k) ↔
    ∃ d ∈ p.documents, ∃ c ∈ p.forcedOf d.policy, x = ⟨.str d.policy, c.literal cfg d.policy⟩ ∧
      Node.conditionKey c.head.id = k

theorem IsDrawnFrom.exists_isDemandTable (h : g.IsDrawnFrom cfg p) :
    ∃ table, g.demandTable = .ok table ∧ IsDemandTable cfg p table := by
  have hparts : (g.policyIds false).mapM g.demandsOf =
      .ok ((g.policyIds false).map (p.demandsOf cfg)) := by
    refine Attempt.mapM_eq_ok_map fun policy hpolicy => ?_
    obtain ⟨d, hd, rfl⟩ := h.exists_of_mem_policyIds hpolicy
    rw [demandsOf, h.hasTreesOf.requirements_eq hd, Attempt.map_ok, Plan.demandsOf, List.map_map]
    rfl
  refine ⟨_, by rw [demandTable, hparts]; rfl, fun k x => ?_⟩
  rw [Grouping.members_ofList, List.mem_filter, ← List.flatMap, List.mem_flatMap]
  constructor
  · rintro ⟨⟨policy, hpolicy, hx⟩, hk⟩
    obtain ⟨d, hd, rfl⟩ := h.exists_of_mem_policyIds hpolicy
    obtain ⟨c, hc, rfl⟩ := List.mem_map.mp hx
    refine ⟨d, hd, c, hc, rfl, ?_⟩
    simpa [Json.alike_str_right, Commitment.literal, Plan.conditionNode] using hk
  · rintro ⟨d, hd, c, hc, rfl, rfl⟩
    refine ⟨⟨.str d.policy, h.isInternal_iff.mpr (List.mem_map_of_mem hd), ?_⟩, ?_⟩
    · exact List.mem_map_of_mem hc
    · simp [Commitment.literal, Plan.conditionNode]

theorem IsDrawnFrom.conditionNode_mem (h : g.IsDrawnFrom cfg p) {policy : String}
    (ha : a.IsPlaced p policy) :
    Plan.conditionNode cfg policy a.head ∈ g.conditionsOn (.str a.head.subject) := by
  obtain ⟨r, hr, hra, hl⟩ := ha
  refine mem_conditionsOn_str.mpr ⟨?_, by simp [← hra, hl], by simp⟩
  rw [← hra]
  exact (node?_spec (h.node?_condition hr)).1

/-- The demands on a variable are what the trees of all declared policies force on it. -/
theorem IsDrawnFrom.mem_demandsOn (h : g.IsDrawnFrom cfg p) {table : Grouping Demand}
    (htable : IsDemandTable cfg p table) {subject : String} {x : Demand} :
    x ∈ (g.conditionsOn (.str subject)).flatMap (fun n => table.members n.id) ↔
      ∃ d ∈ p.documents, ∃ c ∈ p.forcedOf d.policy, x = ⟨.str d.policy, c.literal cfg d.policy⟩ ∧
        c.head.subject = subject := by
  rw [List.mem_flatMap]
  constructor
  · rintro ⟨n, hn, hx⟩
    obtain ⟨hmem, hleaf, hsubject⟩ := mem_conditionsOn_str.mp hn
    obtain ⟨q, hq, -, rfl⟩ := h.eq_of_isLeaf hmem hleaf
    obtain ⟨d, hd, c, hc, rfl, hkey⟩ := (htable _ x).mp hx
    refine ⟨d, hd, c, hc, rfl, ?_⟩
    obtain ⟨r, hr, hrc, -⟩ := Plan.isPlaced_of_mem_forcedOf hd hc
    have hnode := h.node?_condition hr
    have hid : r.id = q.2.id := by
      rw [← Node.conditionKey_inj, Rule.id, hrc]
      exact hkey
    rw [show (d.policy, r).2.id = q.2.id from hid, h.node?_condition hq] at hnode
    have hsame := congrArg Node.subject (Option.some.inj hnode)
    rw [hsubject] at hsame
    simpa [hrc, eq_comm] using hsame
  · rintro ⟨d, hd, c, hc, rfl, rfl⟩
    exact ⟨Plan.conditionNode cfg d.policy c.head,
      h.conditionNode_mem (Plan.isPlaced_of_mem_forcedOf hd hc),
      (htable _ _).mpr ⟨d, hd, c, hc, rfl, rfl⟩⟩

theorem IsDrawnFrom.exists_exclusionCandidate (h : g.IsDrawnFrom cfg p) (subject : Name)
    (hd : d ∈ p.documents) (he : e ∈ p.documents) (hne : d.policy ≠ e.policy)
    (ha : a.IsPlaced p d.policy) (hb : b.IsPlaced p e.policy) :
    ∃ c, g.exclusionCandidate subject ⟨.str d.policy, a.literal cfg d.policy⟩
        ⟨.str e.policy, b.literal cfg e.policy⟩ = .ok c ∧
      c.IsOfExclusion g d.policy e.policy a b := by
  obtain ⟨k, hk, -⟩ := ha.exists_constraint h.sound
  obtain ⟨l, hl, -⟩ := hb.exists_constraint h.sound
  obtain ⟨rs, hrs, hspec⟩ := h.isLegible.exists_linkedBy (h.hasPolicy hd) (h.hasPolicy he)
  have hrequires := ((hspec hne).2 .requires).trans isLinkedBy_requires
  simp only [exclusionCandidate, hrs, Commitment.describe_literal hk,
    Commitment.describe_literal hl, Commitment.evidence_literal hk,
    Commitment.evidence_literal hl, Attempt.ok_bind]
  refine ⟨_, rfl, fun n => Iff.rfl, rfl, rfl, ?_⟩
  by_cases hmem : Relation.requires ∈ rs
  · exact .inl ⟨hrequires.mp hmem, by simp [hmem]⟩
  · exact .inr ⟨fun hr => hmem (hrequires.mpr hr), by simp [hmem]⟩

/-- Two demands have a candidate where they are of two policies and clash. -/
theorem IsDrawnFrom.exists_exclusionPair_spec (h : g.IsDrawnFrom cfg p) (subject : Name)
    (hd : d ∈ p.documents) (he : e ∈ p.documents) (ha : a ∈ p.forcedOf d.policy)
    (hb : b ∈ p.forcedOf e.policy) :
    ∃ cs, g.exclusionPair subject ⟨.str d.policy, a.literal cfg d.policy⟩
        ⟨.str e.policy, b.literal cfg e.policy⟩ = .ok cs ∧
      (∀ c ∈ cs, d.policy ≠ e.policy ∧ a.Clashes b ∧ c.IsOfExclusion g d.policy e.policy a b) ∧
      (d.policy ≠ e.policy → a.Clashes b → ∃ c, c ∈ cs) := by
  have haplaced := Plan.isPlaced_of_mem_forcedOf hd ha
  have hbplaced := Plan.isPlaced_of_mem_forcedOf he hb
  obtain ⟨k, hk, -⟩ := haplaced.exists_constraint h.sound
  obtain ⟨l, hl, -⟩ := hbplaced.exists_constraint h.sound
  obtain ⟨answer, hanswer, hiff⟩ := Commitment.exists_jointly haplaced hbplaced h.sound
    (Commitment.condition_literal cfg _ hk) (Commitment.condition_literal cfg _ hl)
  rw [exclusionPair, Json.same_str]
  by_cases hne : d.policy = e.policy
  · exact ⟨[], by rw [if_pos (by simpa using hne)]; rfl, by simp,
      fun hdistinct => absurd hne hdistinct⟩
  obtain ⟨c, hc, hof⟩ := h.exists_exclusionCandidate subject hd he hne haplaced hbplaced
  rw [if_neg (by simpa using hne), Commitment.condition_literal _ _ hk, Attempt.ok_bind,
    Commitment.condition_literal _ _ hl, Attempt.ok_bind, hanswer, Attempt.ok_bind]
  cases answer with
  | true =>
      refine ⟨[], rfl, by simp, fun _ hclash => ?_⟩
      cases hiff.mpr hclash
  | false =>
      refine ⟨[c], by rw [hc]; rfl, fun x hx => ?_, fun _ _ => ⟨c, by simp⟩⟩
      rw [List.mem_singleton.mp hx]
      exact ⟨hne, hiff.mp rfl, hof⟩

/-- Whether a candidate is of two declared policies that force commitments that clash. -/
def IsExclusionCandidate (g : PolicyGraph) (p : Plan) (c : Candidate) : Prop :=
  ∃ d ∈ p.documents, ∃ e ∈ p.documents, d.policy ≠ e.policy ∧
    ∃ a b, p.Excludes d.policy e.policy a b ∧ c.IsOfExclusion g d.policy e.policy a b

/-- Whether candidates are about the nodes of any commitments that two policies force on a
variable and that clash. -/
def CoverExclusionsOn (p : Plan) (cs : List Candidate) (subject : String) : Prop :=
  ∀ d ∈ p.documents, ∀ e ∈ p.documents, d.policy ≠ e.policy → ∀ a b,
    p.Excludes d.policy e.policy a b → a.head.subject = subject → ∃ c ∈ cs, c.IsAbout a b

/-- On each variable the candidates are of demands on it, and those that clash have one. -/
theorem IsDrawnFrom.exists_exclusionsOn_spec (h : g.IsDrawnFrom cfg p) {table : Grouping Demand}
    (htable : IsDemandTable cfg p table) (subject : String) :
    ∃ cs, g.exclusionsOn table (.str subject) = .ok cs ∧ (∀ c ∈ cs, g.IsExclusionCandidate p c) ∧
      CoverExclusionsOn p cs subject := by
  have hpair : ∀ x ∈ pairsOf ((g.conditionsOn (.str subject)).flatMap fun n => table.members n.id),
      ∃ cs, g.exclusionPair (.str subject) x.1 x.2 = .ok cs ∧
        ∀ c ∈ cs, g.IsExclusionCandidate p c := by
    intro x hx
    obtain ⟨hfirst, hsecond⟩ := mem_of_mem_pairsOf hx
    obtain ⟨d, hd, a, ha, hxa, -⟩ := (h.mem_demandsOn htable).mp hfirst
    obtain ⟨e, he, b, hb, hxb, -⟩ := (h.mem_demandsOn htable).mp hsecond
    obtain ⟨cs, hcs, hof, -⟩ := h.exists_exclusionPair_spec (.str subject) hd he ha hb
    rw [hxa, hxb]
    exact ⟨cs, hcs, fun c hc =>
      ⟨d, hd, e, he, (hof c hc).1, a, b, ⟨ha, hb, (hof c hc).2.1⟩, (hof c hc).2.2⟩⟩
  obtain ⟨parts, hparts, hof⟩ := Attempt.exists_mapM_flatten hpair
  refine ⟨parts.flatten, by rw [exclusionsOn, hparts]; rfl, hof, ?_⟩
  rintro d hd e he hne a b hab rfl
  have ha := (h.mem_demandsOn htable).mpr ⟨d, hd, a, hab.1, rfl, rfl⟩
  have hb := (h.mem_demandsOn htable).mpr ⟨e, he, b, hab.2.1, rfl, hab.2.2.subject_eq.symm⟩
  have hdistinct : (⟨.str d.policy, a.literal cfg d.policy⟩ : Demand) ≠
      ⟨.str e.policy, b.literal cfg e.policy⟩ :=
    fun hsame => hne (Json.str.inj (congrArg Demand.policy hsame))
  -- the two demands are compared in the order in which they are noted
  rcases mem_pairsOf_of_ne ha hb hdistinct with hx | hx
  · obtain ⟨cs, hcs, hofs, hfound⟩ :=
      h.exists_exclusionPair_spec (.str a.head.subject) hd he hab.1 hab.2.1
    obtain ⟨c, hc⟩ := hfound hne hab.2.2
    exact ⟨c, Attempt.subset_flatten_of_mapM hparts hx hcs hc, (hofs c hc).2.2.nodes⟩
  · obtain ⟨cs, hcs, hofs, hfound⟩ :=
      h.exists_exclusionPair_spec (.str a.head.subject) he hd hab.2.1 hab.1
    obtain ⟨c, hc⟩ := hfound (Ne.symm hne) (hab.swap h hd he).2.2
    refine ⟨c, Attempt.subset_flatten_of_mapM hparts hx hcs hc, fun n => ?_⟩
    exact ((hofs c hc).2.2.nodes n).trans (List.Perm.swap _ _ _).mem_iff

/-- The candidates of exclusions are those of requirements of two policies that clash, and any such
requirements have one about their nodes. -/
theorem IsDrawnFrom.exists_exclusions_spec (h : g.IsDrawnFrom cfg p) :
    ∃ cs, g.exclusions = .ok cs ∧ (∀ c ∈ cs, g.IsExclusionCandidate p c) ∧
      ∀ subject, CoverExclusionsOn p cs subject := by
  obtain ⟨table, htable, hof⟩ := h.exists_isDemandTable
  obtain ⟨subjects, hsubjects, hall⟩ := h.isLegible.exists_subjects
  have hon : ∀ s ∈ subjects.map Json.str, ∃ cs, g.exclusionsOn table s = .ok cs ∧
      ∀ c ∈ cs, g.IsExclusionCandidate p c := by
    intro s hs
    obtain ⟨subject, -, rfl⟩ := List.mem_map.mp hs
    exact (h.exists_exclusionsOn_spec hof subject).imp fun _ hcs => ⟨hcs.1, hcs.2.1⟩
  obtain ⟨parts, hparts, hcandidates⟩ := Attempt.exists_mapM_flatten hon
  refine ⟨parts.flatten, ?_, hcandidates, ?_⟩
  · rw [exclusions, htable, Attempt.ok_bind, hsubjects, Attempt.ok_bind, hparts]
    rfl
  · rintro subject d hd e he hne a b hab rfl
    have hsubject : a.head.subject ∈ subjects :=
      hall _ _ (h.conditionNode_mem (Plan.isPlaced_of_mem_forcedOf hd hab.1))
    obtain ⟨cs, hcs, -, hcover⟩ := h.exists_exclusionsOn_spec hof a.head.subject
    obtain ⟨c, hc, habout⟩ := hcover d hd e he hne a b hab rfl
    exact ⟨c, Attempt.subset_flatten_of_mapM hparts (List.mem_map_of_mem hsubject) hcs hc, habout⟩

end Search

section Agreement

variable {table : List Impossibility} {ks : List ConflictKind} {r : ConflictReport}

/-- What the pass over exclusions gives is of two policies that force commitments that clash. -/
theorem IsDrawnFrom.isExclusionCandidate_of_gives (h : g.IsDrawnFrom cfg p) {c : Candidate}
    (hc : g.Gives table .exclusion c) : g.IsExclusionCandidate p c := by
  obtain ⟨cs, hcs, hof, -⟩ := h.exists_exclusions_spec
  obtain ⟨ds, hds, hc⟩ := hc
  obtain rfl := Except.ok.inj (hcs.symm.trans hds)
  exact hof c hc

theorem eq_or_eq_of_perm_pair {α : Type} {x y a b : α} (h : [x, y].Perm [a, b]) :
    x = a ∧ y = b ∨ x = b ∧ y = a := by
  rcases List.mem_pair.mp (h.mem_iff.mp (by simp : x ∈ [x, y])) with rfl | rfl
  · exact .inl ⟨rfl, List.singleton_perm_singleton.mp ((List.perm_cons _).mp h)⟩
  · have h := (List.perm_cons _).mp (h.trans (.swap _ _ _))
    exact .inr ⟨rfl, List.singleton_perm_singleton.mp h⟩

/-- Candidates about the same nodes are of the same two policies. -/
theorem IsDrawnFrom.perm_policies_of_same_nodes (h : g.IsDrawnFrom cfg p) {d' e' : Document}
    {x y : Commitment} (hd : d ∈ p.documents) (he : e ∈ p.documents)
    (hd' : d' ∈ p.documents) (he' : e' ∈ p.documents) (hne' : d'.policy ≠ e'.policy)
    (hab : p.Excludes d.policy e.policy a b) (hxy : p.Excludes d'.policy e'.policy x y)
    {c c' : Candidate} (hc : c.IsAbout a b) (hc' : c'.IsAbout x y)
    (hnodes : ∀ n, n ∈ c'.nodes ↔ n ∈ c.nodes) :
    [d'.policy, e'.policy].Perm [d.policy, e.policy] := by
  have hids := hc.mem_ids_iff hc' hnodes
  have hplaced : ∀ {d : Document} {c : Commitment}, d ∈ p.documents → c ∈ p.forcedOf d.policy →
      c.IsPlaced p d.policy := fun hd hc => Plan.isPlaced_of_mem_forcedOf hd hc
  -- the policy of a commitment is told by its rule
  have hpolicy : ∀ {f : Document} {z : Commitment}, f ∈ p.documents → z ∈ p.forcedOf f.policy →
      z.head.id ∈ [a.head.id, b.head.id] → f.policy = d.policy ∨ f.policy = e.policy := by
    intro f z hf hz hmem
    rcases List.mem_pair.mp hmem with hid | hid
    · exact .inl ((hplaced hf hz).policy_eq h (hplaced hd hab.1) hid)
    · exact .inr ((hplaced hf hz).policy_eq h (hplaced he hab.2.1) hid)
  rcases hpolicy hd' hxy.1 ((hids _).mp (by simp)) with hx | hx <;>
    rcases hpolicy he' hxy.2.1 ((hids _).mp (by simp)) with hy | hy
  · exact absurd (hx.trans hy.symm) hne'
  · rw [hx, hy]
  · rw [hx, hy]
    exact .swap _ _ _
  · exact absurd (hx.trans hy.symm) hne'

/-- An exclusion is reported where two policies that share a scope force commitments that clash. -/
theorem IsReportOf.exists_exclusion (hr : g.IsReportOf table ks r) (h : g.IsDrawnFrom cfg p)
    (hsound : ∀ k ∈ ks, g.PassIsSound table k) (hids : g.HasNoCollisionAmong table ks)
    (hk : .exclusion ∈ ks) (hd : d ∈ p.documents) (he : e ∈ p.documents)
    (hne : d.policy ≠ e.policy)
    (hscope : g.checkScope true (.str d.policy) (.str e.policy) = .ok ())
    (hab : p.Excludes d.policy e.policy a b) :
    ∃ x ∈ r.conflicts, x.IsExclusionOf d.policy e.policy := by
  obtain ⟨cs, hcs, hof, hcover⟩ := h.exists_exclusions_spec
  obtain ⟨c, hc, habout⟩ := hcover _ d hd e he hne a b hab rfl
  have hgives : g.Gives table .exclusion c := ⟨cs, hcs, hc⟩
  have hcsound := (hsound _ hk).isSound hgives
  have hswapped := h.checkScope_swap hd he hscope
  obtain ⟨d', hd', e', he', hne', a', b', hab', hpair⟩ := hof c hc
  -- the candidate is of the two policies, in one order or the other
  have hchecked : c.checkScope g = .ok () := by
    have hperm := h.perm_policies_of_same_nodes hd he hd' he' hne' hab hab' habout hpair.nodes
      fun n => Iff.rfl
    refine hcsound.checkScope_of_pair hpair.policies hne' ?_ ?_ <;> rw [hpair.entities]
    all_goals
      rcases eq_or_eq_of_perm_pair hperm with ⟨hx, hy⟩ | ⟨hx, hy⟩ <;> rw [hx, hy] <;> assumption
  obtain ⟨c', hc', hnodes, x, hx, hkind, hyields⟩ :=
    hr.exists_conflict hsound hids hk hgives hchecked
  obtain ⟨d'', hd'', e'', he'', hne'', x', y', hxy, hpair'⟩ := h.isExclusionCandidate_of_gives hc'
  have hperm := h.perm_policies_of_same_nodes hd he hd'' he'' hne'' hab hxy habout hpair'.nodes
    hnodes
  have hpolicies : x.policies = Name.sortTexts [d''.policy, e''.policy] :=
    hyields.policies_eq hpair'.policies (by simpa using hne'')
  exact ⟨x, hx, hkind, hpolicies.trans (Name.sortTexts_eq_of_perm hperm)⟩

/-- Where an exclusion of two policies is reported, they force commitments that clash, and its
severity is that of the two. -/
theorem IsReportOf.exists_excludes (hr : g.IsReportOf table ks r) (h : g.IsDrawnFrom cfg p)
    (hsound : ∀ k ∈ ks, g.PassIsSound table k) {x : Conflict} (hx : x ∈ r.conflicts)
    {first second : String} (hof : x.IsExclusionOf first second) :
    (∃ a b, p.Excludes first second a b) ∧ g.IsExclusionSeverity first second x.severity := by
  obtain ⟨c, hc, -, -, hyields⟩ := hr.exists_candidate hsound hx
  rw [hof.1] at hc
  obtain ⟨d', hd', e', he', hne', a, b, hab, hpair⟩ := h.isExclusionCandidate_of_gives hc
  have hpolicies : x.policies = Name.sortTexts [d'.policy, e'.policy] :=
    hyields.policies_eq hpair.policies (by simpa using hne')
  have hperm : [d'.policy, e'.policy].Perm [first, second] := by
    refine (Name.sortTexts_perm _).symm.trans (.trans ?_ (Name.sortTexts_perm _))
    rw [← hpolicies, hof.2]
  rw [hyields.severity]
  rcases eq_or_eq_of_perm_pair hperm with ⟨hx, hy⟩ | ⟨hx, hy⟩
  · rw [← hx, ← hy]
    exact ⟨⟨a, b, hab⟩, hpair.severity⟩
  · rw [← hx, ← hy]
    exact ⟨⟨b, a, hab.swap h hd' he'⟩, hpair.severity.symm⟩

theorem checkScope_of_inScope {entities : Bool} {first second : Name}
    (h : g.inScope entities first second = .ok true) :
    g.checkScope entities first second = .ok () := by
  unfold inScope at h
  split at h
  · assumption
  · split at h <;> cases h

/-- Over the graph of a payload detection with the search for exclusions gives a report; unless
identifiers collide, it has an exclusion of two declared policies that share a scope exactly where
two of their requirements are not jointly satisfiable.  The severity of the exclusion is high where
one of the policies requires the other one, and medium elsewhere; and against no inputs of the
domains of their variables do both policies evaluate to true, so that no applicant is eligible for
both. -/
theorem areExclusive_iff_reported {payload : Json} {passes : Option (List ConflictKind)}
    (hg : (RuleSet.compile cfg payload).outcome = .ok g) (htable : ∀ i ∈ table, i.IsFitting)
    (hpasses : .exclusion ∈ selectedPasses passes)
    (hids : g.HasNoCollisionAmong table (selectedPasses passes)) {first second : String}
    (hfirst : g.IsInternal first) (hsecond : g.IsInternal second) (hne : first ≠ second)
    (hscope : g.inScope true (.str first) (.str second) = .ok true) :
    ∃ r, (g.detect table passes none).outcome = .ok r ∧
      ((∃ x ∈ r.conflicts, x.IsExclusionOf first second) ↔ g.AreExclusive first second) ∧
      ∀ x ∈ r.conflicts, x.IsExclusionOf first second →
        (x.severity = .high ↔ g.RequiresEither first second) ∧
        (x.severity = .medium ↔ ¬ g.RequiresEither first second) ∧
        ∀ inputs, g.AreInDomain inputs → ¬ (g.Holds inputs first ∧ g.Holds inputs second) ∧
          ∀ settings v w, (g.answer settings ⟨first, inputs⟩).outcome = .ok v →
            (g.answer settings ⟨second, inputs⟩).outcome = .ok w →
            ¬ (v.status = .eligible ∧ w.status = .eligible) := by
  obtain ⟨p, h, hnamed⟩ := exists_named_plan hg
  obtain ⟨d, hd, rfl⟩ := List.mem_map.mp (h.isInternal_iff.mp hfirst)
  obtain ⟨e, he, rfl⟩ := List.mem_map.mp (h.isInternal_iff.mp hsecond)
  have hsound : ∀ k ∈ selectedPasses passes, g.PassIsSound table k :=
    fun k _ => h.passIsSound hnamed htable k
  obtain ⟨r, hr, hreport⟩ := h.isLegible.exists_reportOf hsound
  refine ⟨r, hr, ⟨fun ⟨x, hx, hof⟩ => ?_, fun hexclusive => ?_⟩, fun x hx hof => ?_⟩
  · exact (h.areExclusive_iff hd he).mpr (hreport.exists_excludes h hsound hx hof).1
  · obtain ⟨a, b, hab⟩ := (h.areExclusive_iff hd he).mp hexclusive
    exact hreport.exists_exclusion h hsound hids hpasses hd he hne
      (checkScope_of_inScope hscope) hab
  obtain ⟨⟨a, b, ha, hb, hclash⟩, hseverity⟩ := hreport.exists_excludes h hsound hx hof
  have hboth : ∀ inputs, g.AreInDomain inputs →
      ¬ (g.Holds inputs d.policy ∧ g.Holds inputs e.policy) := by
    intro inputs hdomain hholds
    exact hclash.not_isKept h (Plan.isPlaced_of_mem_forcedOf hd ha)
      (Plan.isPlaced_of_mem_forcedOf he hb) hdomain
      ⟨h.isKept_of_holds hd hholds.1 ha, h.isKept_of_holds he hholds.2 hb⟩
  refine ⟨?_, ?_, fun inputs hdomain =>
    ⟨hboth inputs hdomain, fun settings v w hv hw heligible => ?_⟩⟩
  · rcases hseverity with ⟨hyes, hs⟩ | ⟨hno, hs⟩ <;> simp [*]
  · rcases hseverity with ⟨hyes, hs⟩ | ⟨hno, hs⟩ <;> simp [*]
  · exact hboth inputs hdomain
      ⟨holds_of_answer hv heligible.1, holds_of_answer hw heligible.2⟩

end Agreement

section Neighbours

/-- Two policies on one variable, of which the second one requires the first one. -/
def neighbours : RuleSet where
  rules := [.node (statusHead "a" .eq "a") [],
    .node { statusHead "b" .eq "b" with clause := "e" } []]
  documents := [{ policy := "p", clauses := [{ id := "c" }] },
    { policy := "q", clauses := [{ id := "e" }], prerequisites := ["p"] }]

def neighboursPlan : Plan :=
  ⟨neighbours.documents, [("p", .node (statusHead "a" .eq "a") []),
    ("q", .node { statusHead "b" .eq "b" with clause := "e" } [])]⟩

/-- The payload of two policies on one variable, of which the second one requires the first one. -/
def neighboursPayload : Json :=
  .obj [("rules", .arr [statusPayload "a" .eq "a",
      .obj [("rule_id", .str "b"), ("variable", .str "status"), ("operator", .str "EQ"),
        ("value", .str "b"), ("clause_reference", .str "e"), ("confidence", .float Number.one)]]),
    ("documents", .arr [
      .obj [("policy_id", .str "p"), ("clauses", .arr [.obj [("clause_id", .str "c")]])],
      .obj [("policy_id", .str "q"), ("clauses", .arr [.obj [("clause_id", .str "e")]]),
        ("requires", .arr [.str "p"])]])]

/-- Two policies that ask for different texts, and of which one requires the other one, are reported
as an exclusion. -/
theorem areExclusive_iff_reported_neighbours : ∃ g r,
    (RuleSet.compile .standard neighboursPayload).outcome = .ok g ∧
      (g.detect Impossibility.standard (some [.exclusion]) none).outcome = .ok r ∧
      ∃ x ∈ r.conflicts, x.IsExclusionOf "p" "q" ∧ x.severity = .high := by
  obtain ⟨g, hvalid, hbuild, h⟩ : ∃ g, neighbours.validate .standard = .ok _ ∧
      (neighbours.build .standard).outcome = .ok g ∧ g.IsDrawnFrom .standard neighboursPlan :=
    exists_build (by decide +kernel) rfl (by decide +kernel)
  have hg : (RuleSet.compile .standard neighboursPayload).outcome = .ok g :=
    (outcome_compile rfl hvalid).trans hbuild
  have hfirst : g.IsInternal "p" := h.isInternal_iff.mpr (by decide)
  have hsecond : g.IsInternal "q" := h.isInternal_iff.mpr (by decide)
  have hp : { policy := "p", clauses := [{ id := "c" }] } ∈ neighboursPlan.documents := by
    simp [neighboursPlan, neighbours]
  have hq : { policy := "q", clauses := [{ id := "e" }], prerequisites := ["p"] } ∈
      neighboursPlan.documents := by
    simp [neighboursPlan, neighbours]
  -- the requirement links the two policies, and both are about the entity that is the default
  have hscope : g.inScope true (.str "p") (.str "q") = .ok true := by
    have hlinked : g.IsLinked "p" "q" := h.isLinked_iff.mpr (by decide +kernel)
    have hchecked : g.checkScope true (.str "p") (.str "q") = .ok () := by
      refine (h.isLegible.checkScope_eq_ok_iff true (h.hasPolicy hp) (h.hasPolicy hq)).mpr
        (.inr ⟨hlinked, fun _ x hx y hy => ?_⟩)
      rw [entityOf_eq (h.node?_policy hp)] at hx
      rw [entityOf_eq (h.node?_policy hq)] at hy
      obtain rfl := Except.ok.inj hx
      obtain rfl := Except.ok.inj hy
      decide
    rw [inScope, hchecked]
  have hforced : (∀ z ∈ neighboursPlan.forcedOf "p", z.head.id = "a") ∧
      ∀ z ∈ neighboursPlan.forcedOf "q", z.head.id = "b" :=
    ⟨fun z hz => by rw [List.mem_singleton.mp hz]; rfl,
      fun z hz => by rw [List.mem_singleton.mp hz]; rfl⟩
  have hids :
      g.HasNoCollisionAmong Impossibility.standard (selectedPasses (some [.exclusion])) := by
    have hsound : g.PassIsSound Impossibility.standard .exclusion := h.isLegible.exists_exclusions
    have hpair : ∀ c, g.Gives Impossibility.standard .exclusion c → ∀ n, n ∈ c.nodes ↔
        n ∈ [Json.str (Node.conditionKey "a"), .str (Node.conditionKey "b")] := by
      intro c hc n
      obtain ⟨d, hd, e, he, hne, x, y, hxy, hof⟩ := h.isExclusionCandidate_of_gives hc
      rw [hof.nodes]
      rcases List.mem_pair.mp hd with rfl | rfl <;> rcases List.mem_pair.mp he with rfl | rfl
      · exact absurd rfl hne
      · rw [hforced.1 x hxy.1, hforced.2 y hxy.2.1]
      · rw [hforced.2 x hxy.1, hforced.1 y hxy.2.1]
        exact (List.Perm.swap _ _ _).mem_iff
      · exact absurd rfl hne
    exact hasNoCollisionAmong_singleton fun c hc => ⟨(hsound.isSound hc).kind, hpair c hc⟩
  obtain ⟨r, hr, hiff, hseverity⟩ := areExclusive_iff_reported hg Impossibility.standard_fits
    List.mem_cons_self hids hfirst hsecond (by decide) hscope
  have hexclusive : g.AreExclusive "p" "q" := (h.areExclusive_iff hp hq).mpr
    ⟨_, _, List.mem_singleton_self _, List.mem_singleton_self _, _, _, rfl, rfl, rfl⟩
  obtain ⟨x, hx, hof⟩ := hiff.mpr hexclusive
  refine ⟨g, r, hg, hr, x, hx, hof, (hseverity x hx hof).1.mpr (.inr ?_)⟩
  exact h.requires_iff.mpr ⟨_, hq, rfl, by simp⟩

end Neighbours

end PolicyGraph
end Eligibility
