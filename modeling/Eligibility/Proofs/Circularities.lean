import Eligibility.Proofs.Dependencies
import Eligibility.Proofs.Ranges
import Eligibility.Proofs.Readings
import Eligibility.Proofs.Reporting
/-!
# Circular requirements are reported

**Candidates.**  Every cycle of dependencies has a candidate, which names the policies on
it and nothing else.  Its policies have names, since only declared policies and rules
depend on anything.

**Scope.**  A candidate is suppressed unless an edge links any two of its policies.  The
edges of a cycle link its neighbours only: a cycle of two or three policies is always
reported, and a longer one only where shorter ways across it are drawn as well.

**Results.**
* `exists_circularities`: the candidates of cycles.
* `isLinked_of_namesCycle`: what a report of a cycle tells about its policies.
* `detect_circularity`: when a cycle of requirements is reported.
-/

namespace Eligibility

/-- Whether a policy has a clause. -/
def PolicyGraph.Cites (g : PolicyGraph) (a : String) (n : Name) : Prop :=
  ∃ cs, g.clausesOf (.str a) = .ok cs ∧ n ∈ cs

/-- A candidate of a cycle of dependencies. -/
structure Candidate.IsOfCycle (g : PolicyGraph) (ks : List String) (c : Candidate) : Prop where
  sound : c.IsSound g .circularity
  severity : c.severity = .critical
  entities : c.entities = false
  nodes : c.nodes = ks.map .str
  policies : ∀ a, Json.str a ∈ c.policies ↔ Node.policyKey a ∈ ks
  clauses : ∀ n, n ∈ c.clauses ↔ ∃ a, Node.policyKey a ∈ ks ∧ g.Cites a n

namespace PolicyGraph

variable {cfg : Settings} {g : PolicyGraph} {p : Plan} {table : List Impossibility}

section Candidates

/-- Whether every node that depends on something is called by a text. -/
def HasNamedSources (g : PolicyGraph) : Prop :=
  ∀ e ∈ g.edges, e.relation.isDependency = true → ∀ n ∈ g.nodes, n.id = e.source →
    ∃ x, cycleName n = .str x

theorem IsDrawnFrom.hasNamedSources (h : g.IsDrawnFrom cfg p) (hnamed : AreNamed p.documents) :
    g.HasNamedSources := by
  intro e he hrelation n hn hid
  rcases h.source_of_isDependency he hrelation with ⟨d, hd, hs⟩ | ⟨q, hq, hs⟩
  · have hnode := h.isLegible.node?_of_mem hn (hid.trans hs)
    rw [h.node?_policy hd] at hnode
    obtain rfl := Option.some.inj hnode
    exact ⟨d.policy, by simp [cycleName, Json.truthy, hnamed d hd]⟩
  · have hnode := h.isLegible.node?_of_mem hn (hid.trans hs)
    rw [h.node?_condition hq] at hnode
    obtain rfl := Option.some.inj hnode
    unfold cycleName
    split
    · exact ⟨q.1, by simp⟩
    · exact ⟨q.2.head.id, by simp⟩

/-- A policy is among the nodes of a cycle where its key is on the cycle. -/
theorem IsLegible.mem_policies (h : g.IsLegible) {ks : List String}
    (hks : ∀ s ∈ ks, ∃ t, g.DependsOn s t) {a : String} :
    Json.str a ∈ (((ks.map Json.str).filterMap g.node?).filter fun n => n.kind = .policy).map
      Node.policy ↔ Node.policyKey a ∈ ks := by
  simp only [List.mem_map, List.mem_filter, List.mem_filterMap, decide_eq_true_eq]
  constructor
  · rintro ⟨n, ⟨⟨k, ⟨s, hs, rfl⟩, hn⟩, hkind⟩, hpolicy⟩
    obtain ⟨b, hb, rfl⟩ := h.exists_policy hn hkind
    rwa [Json.str.inj (hb.symm.trans hpolicy)] at hs
  · intro ha
    obtain ⟨t, hst⟩ := hks _ ha
    obtain ⟨n, hn⟩ := h.exists_node_of_dependsOn hst
    have hkind := h.key n (node?_spec hn).1 a (node?_spec hn).2
    obtain ⟨b, hb, hab⟩ := h.exists_policy hn hkind
    exact ⟨n, ⟨⟨_, ⟨_, ha, rfl⟩, hn⟩, hkind⟩, by rw [hb, Node.policyKey_inj.mp hab]⟩

/-- A cycle of dependencies has a candidate. -/
theorem IsLegible.exists_circularityCandidate (h : g.IsLegible) (hnamed : g.HasNamedSources)
    {ks : List String} (hks : ∀ s ∈ ks, ∃ t, g.DependsOn s t) :
    ∃ c, g.circularityCandidate (ks.map .str) = .ok c ∧ c.IsOfCycle g ks := by
  set nodes := (ks.map Json.str).filterMap g.node? with hnodes
  set policies := (nodes.filter fun n => n.kind = .policy).map Node.policy with hpolicies
  have hnode : ∀ n ∈ nodes, ∃ s ∈ ks, g.node? (.str s) = some n := by
    intro n hn
    obtain ⟨k, hk, hkn⟩ := List.mem_filterMap.mp hn
    obtain ⟨s, hs, rfl⟩ := List.mem_map.mp hk
    exact ⟨s, hs, hkn⟩
  have hpolicy : ∀ n ∈ policies, ∃ a, n = .str a ∧ g.HasPolicy a := by
    intro x hx
    obtain ⟨n, hn, rfl⟩ := List.mem_map.mp hx
    obtain ⟨hn, hkind⟩ := List.mem_filter.mp hn
    obtain ⟨s, hs, hsn⟩ := hnode n hn
    exact h.hasPolicy (node?_spec hsn).1 (by simpa using hkind)
  have hclauses : ∀ n ∈ policies, ∃ cs, g.clausesOf n = .ok cs ∧ ∀ m ∈ cs, ∃ s, m = .str s := by
    intro n hn
    obtain ⟨a, rfl, m, hm, -⟩ := hpolicy n hn
    obtain ⟨cs, hcs, -⟩ := h.exists_clausesOf (hasNode_of_node? hm)
    exact ⟨cs.map .str, hcs, fun x hx => (List.mem_map.mp hx).imp fun _ hy => hy.2.symm⟩
  obtain ⟨clauses, hclauses, htexts⟩ := Attempt.exists_mapM_flatten hclauses
  have hcited : ∀ n, n ∈ clauses.flatten ↔ ∃ a, Node.policyKey a ∈ ks ∧ g.Cites a n := by
    intro n
    constructor
    · refine Attempt.mapM_flatten_keeps (P := fun n => ∃ a, Node.policyKey a ∈ ks ∧ g.Cites a n)
        hclauses (fun x hx cs hcs m hm => ?_) n
      obtain ⟨a, rfl, -⟩ := hpolicy x hx
      exact ⟨a, (h.mem_policies hks).mp hx, cs, hcs, hm⟩
    · rintro ⟨a, ha, cs, hcs, hn⟩
      exact Attempt.subset_flatten_of_mapM hclauses ((h.mem_policies hks).mpr ha) hcs hn
  have hnames : ∀ x ∈ nodes.map cycleName, ∃ s, x = .str s := by
    intro x hx
    obtain ⟨n, hn, rfl⟩ := List.mem_map.mp hx
    obtain ⟨s, hs, hsn⟩ := hnode n hn
    obtain ⟨t, e, he, hrelation, hsource, -⟩ := hks s hs
    obtain ⟨hmem, hid⟩ := node?_spec hsn
    exact hnamed e he hrelation n hmem (hid.trans hsource.symm)
  obtain ⟨names, hnames⟩ := Name.exists_strs hnames
  have hnameTexts : nameTexts (nodes.map cycleName) = .ok names := by
    rw [nameTexts, hnames, Name.texts?_strs]
  unfold circularityCandidate
  simp only [← hnodes, ← hpolicies, hclauses, hnameTexts, Attempt.ok_bind]
  refine ⟨_, rfl, ⟨rfl, .inl rfl, fun n hn => ?_, htexts, hpolicy⟩, rfl, rfl, rfl, fun a => ?_,
    hcited⟩
  · obtain ⟨s, hs, rfl⟩ := List.mem_map.mp hn
    obtain ⟨t, hst⟩ := hks s hs
    obtain ⟨m, hm⟩ := h.exists_node_of_dependsOn hst
    exact ⟨s, rfl, hasNode_of_node? hm⟩
  · exact h.mem_policies hks

/-- The candidates of the pass over dependencies are those of the cycles, one for each. -/
theorem IsLegible.exists_candidates_of_cycles (h : g.IsLegible) (hnamed : g.HasNamedSources) :
    ∃ cs, g.circularities = .ok cs ∧ ∃ found : List (List String), found.Nodup ∧
      (∀ ks ∈ found, IsCycle g.DependsOn ks ∧ BeginsLeast ks) ∧
      (∀ ks, IsCycle g.DependsOn ks → ∃ ls ∈ found, ls ~r ks) ∧
      List.Forall₂ (fun ks c => c.IsOfCycle g ks) found cs := by
  obtain ⟨found, hfound, hnodup, hcycles, hcomplete⟩ := h.exists_cycles
  have hcandidate : ∀ ks ∈ found, ∃ c, g.circularityCandidate (ks.map .str) = .ok c ∧
      c.IsOfCycle g ks := fun ks hks => h.exists_circularityCandidate hnamed fun s hs =>
    ((hcycles ks hks).1.exists_next hs).imp fun _ ht => ht.2
  obtain ⟨cs, hall⟩ := Attempt.exists_forall₂ hcandidate
  refine ⟨cs, ?_, found, hnodup, hcycles, hcomplete, hall.imp fun _ _ hc => hc.2⟩
  rw [circularities, hfound, Attempt.ok_bind]
  exact Attempt.mapM_eq_ok.mpr (List.forall₂_map_left_iff.mpr (hall.imp fun _ _ hc => hc.1))

/-- The candidates of the pass over dependencies are those of cycles, and every cycle has one. -/
theorem IsLegible.exists_circularities (h : g.IsLegible) (hnamed : g.HasNamedSources) :
    ∃ cs, g.circularities = .ok cs ∧
      (∀ c ∈ cs, ∃ ks, IsCycle g.DependsOn ks ∧ c.IsOfCycle g ks) ∧
      ∀ ks, IsCycle g.DependsOn ks →
        ∃ c ∈ cs, ∃ ls : List String, ls.Perm ks ∧ c.IsOfCycle g ls := by
  obtain ⟨cs, hcs, found, -, hcycles, hcomplete, hall⟩ := h.exists_candidates_of_cycles hnamed
  refine ⟨cs, hcs, fun c hc => ?_, fun ks hks => ?_⟩
  · obtain ⟨ks, hks, hof⟩ := Attempt.exists_left hall hc
    exact ⟨ks, (hcycles ks hks).1, hof⟩
  · obtain ⟨ls, hls, hrotated⟩ := hcomplete ks hks
    obtain ⟨c, hc, hof⟩ := Attempt.exists_right hall hls
    exact ⟨c, hc, ls, hrotated.perm, hof⟩

/-- Every pass over a graph that can be read gives its candidates, and they are sound. -/
theorem IsLegible.passIsSound (h : g.IsLegible) (hnamed : g.HasNamedSources)
    (htable : ∀ i ∈ table, i.IsFitting) (k : ConflictKind) : g.PassIsSound table k := by
  by_cases hk : k = .circularity
  · obtain ⟨cs, hcs, hcycles, -⟩ := h.exists_circularities hnamed
    refine ⟨cs, by rw [hk]; exact hcs, fun c hc => ?_⟩
    obtain ⟨ks, -, hof⟩ := hcycles c hc
    rw [hk]
    exact hof.sound
  · exact h.exists_other_candidates htable hk

theorem IsDrawnFrom.passIsSound (h : g.IsDrawnFrom cfg p) (hnamed : AreNamed p.documents)
    (htable : ∀ i ∈ table, i.IsFitting) (k : ConflictKind) : g.PassIsSound table k :=
  h.isLegible.passIsSound (h.hasNamedSources hnamed) htable k

/-- What the pass over dependencies gives is of a cycle. -/
theorem IsLegible.isOfCycle (h : g.IsLegible) (hnamed : g.HasNamedSources) {c : Candidate}
    (hc : g.Gives table .circularity c) : ∃ ks, IsCycle g.DependsOn ks ∧ c.IsOfCycle g ks := by
  obtain ⟨cs, hcs, hcycles, -⟩ := h.exists_circularities hnamed
  obtain ⟨ds, hds, hc⟩ := hc
  obtain rfl := Except.ok.inj (hcs.symm.trans hds)
  exact hcycles c hc

end Candidates

section Requirements

/-- Whether candidates with one identifier are of one kind and about the same nodes. -/
def HasNoCollision (g : PolicyGraph) (table : List Impossibility) : Prop :=
  ∀ k l c d id, g.Gives table k c → g.Gives table l d → c.conflictId = .ok id →
    d.conflictId = .ok id → c.kind = d.kind ∧ ∀ n, n ∈ c.nodes ↔ n ∈ d.nodes

theorem HasNoCollision.among (h : g.HasNoCollision table) (ks : List ConflictKind) :
    g.HasNoCollisionAmong table ks :=
  fun k _ l _ => h k l

/-- Where no identifier of a node holds a bar, identifiers of candidates collide only where the
digests of different texts do. -/
theorem IsDrawnFrom.hasNoCollision_of_digest (h : g.IsDrawnFrom cfg p)
    (hnamed : AreNamed p.documents) (htable : ∀ i ∈ table, i.IsFitting)
    (hbar : ∀ s, g.hasNode (.str s) = true → '|' ∉ s.toList)
    (hdigest : ∀ k l xs ys, (∀ s ∈ xs ++ ys, g.hasNode (.str s) = true) →
      Conflict.identify k xs = Conflict.identify l ys → Conflict.key k xs = Conflict.key l ys) :
    g.HasNoCollision table := by
  intro k l c d id hc hd hcid hdid
  have hcsound := (h.passIsSound hnamed htable k).isSound hc
  have hdsound := (h.passIsSound hnamed htable l).isSound hd
  obtain ⟨xs, hxs, hxid⟩ := hcsound.exists_conflictId
  obtain ⟨ys, hys, hyid⟩ := hdsound.exists_conflictId
  have hnode : ∀ s ∈ xs ++ ys, g.hasNode (.str s) = true := by
    have hof : ∀ {k : ConflictKind} {c : Candidate} {zs : List String}, c.IsSound g k →
        c.nodes = zs.map .str → ∀ s ∈ zs, g.hasNode (.str s) = true := by
      intro k c zs hsound hzs s hs
      obtain ⟨t, ht, hnode⟩ := hsound.nodes (.str s) (hzs ▸ List.mem_map_of_mem hs)
      rwa [Json.str.inj ht]
    exact List.forall_mem_append.mpr ⟨hof hcsound hxs, hof hdsound hys⟩
  have hsame : Conflict.identify k xs = Conflict.identify l ys :=
    Except.ok.inj ((hxid.symm.trans hcid).trans (hdid.symm.trans hyid))
  obtain ⟨hx, hy⟩ := List.forall_mem_append.mp hnode
  obtain ⟨rfl, hmem⟩ := Conflict.key_inj (fun s hs => hbar s (hx s hs))
    (fun s hs => hbar s (hy s hs)) (hdigest k l xs ys hnode hsame)
  refine ⟨hcsound.kind.trans hdsound.kind.symm, fun n => ?_⟩
  rw [hxs, hys]
  simp only [List.mem_map, hmem]

/-- Whether a report has a critical conflict of a cycle between some policies and no others. -/
def NamesCycle (r : ConflictReport) (cycle : List String) : Prop :=
  ∃ x ∈ r.conflicts, x.kind = .circularity ∧ x.severity = .critical ∧ x.policies.Perm cycle

theorem isLinked_of_requires {a b : String} (h : g.Requires a b) : g.IsLinked a b := by
  obtain ⟨e, he, hrelation, hsource, htarget⟩ := h
  exact ⟨e, he, by simp [hrelation, Relation.isLink], .inl ⟨hsource, htarget⟩⟩

/-- A cycle of requirements is a cycle of dependencies. -/
theorem isCycle_policyKey {cycle : List String} (h : IsCycle g.Requires cycle) :
    IsCycle g.DependsOn (cycle.map Node.policyKey) := by
  refine h.map (fun a _ b _ hab => Node.policyKey_inj.mp hab) fun a _ b _ hab => ?_
  obtain ⟨e, he, hrelation, hsource, htarget⟩ := hab
  exact ⟨e, he, by simp [hrelation, Relation.isDependency], hsource, htarget⟩

/-- Where a report names a cycle, an edge links any two of its policies. -/
theorem IsReport.isLinked_of_namesCycle {r : ConflictReport} (hr : g.IsReport table r)
    (h : g.IsLegible) (hnamed : g.HasNamedSources)
    (htable : ∀ i ∈ table, i.IsFitting) {cycle : List String} (hcycle : NamesCycle r cycle)
    {a b : String} (ha : a ∈ cycle) (hb : b ∈ cycle) (hne : a ≠ b) : g.IsLinked a b := by
  obtain ⟨x, hx, hkind, -, hpolicies⟩ := hcycle
  obtain ⟨c, hc, hsound, hscope, hyields⟩ :=
    hr.exists_candidate (fun k _ => h.passIsSound hnamed htable k) hx
  rw [hkind] at hc
  obtain ⟨ks, -, hof⟩ := h.isOfCycle hnamed hc
  refine (hsound.checkScope_eq_ok h hof.entities).mp hscope a b ?_ ?_ hne
  · exact (hyields.policies a).mp (hpolicies.mem_iff.mpr ha)
  · exact (hyields.policies b).mp (hpolicies.mem_iff.mpr hb)

/-- A cycle of requirements is named where an edge links any two of its policies. -/
theorem IsReportOf.namesCycle_of_isLinked {r : ConflictReport} {passes : List ConflictKind}
    (hr : g.IsReportOf table passes r) (h : g.IsLegible) (hnamed : g.HasNamedSources)
    (htable : ∀ i ∈ table, i.IsFitting) (hids : g.HasNoCollisionAmong table passes)
    (hpasses : .circularity ∈ passes) {cycle : List String} (hcycle : IsCycle g.Requires cycle)
    (hlinked : ∀ a ∈ cycle, ∀ b ∈ cycle, a ≠ b → g.IsLinked a b) : NamesCycle r cycle := by
  obtain ⟨cs, hcs, -, hcomplete⟩ := h.exists_circularities hnamed
  obtain ⟨c, hc, ks, hperm, hof⟩ := hcomplete _ (isCycle_policyKey hcycle)
  have hgives : g.Gives table .circularity c := ⟨cs, hcs, hc⟩
  have hkey : ∀ a, Node.policyKey a ∈ ks ↔ a ∈ cycle := by
    intro a
    rw [hperm.mem_iff, List.mem_map]
    exact ⟨fun ⟨b, hb, hab⟩ => Node.policyKey_inj.mp hab ▸ hb, fun ha => ⟨a, ha, rfl⟩⟩
  have hscope : c.checkScope g = .ok () := by
    refine (hof.sound.checkScope_eq_ok h hof.entities).mpr fun a b ha hb hne => ?_
    rw [hof.policies, hkey] at ha hb
    exact hlinked a ha b hb hne
  -- the conflict that is reported under the identifier of the cycle is one of a cycle on its nodes
  obtain ⟨d, hd, hnodes, y, hy, hkind, hyields⟩ :=
    hr.exists_conflict (fun k _ => h.passIsSound hnamed htable k) hids hpasses hgives hscope
  obtain ⟨ls, -, hdof⟩ := h.isOfCycle hnamed hd
  refine ⟨y, hy, hkind, ?_, ?_⟩
  · rw [hyields.severity, hdof.severity]
  · refine (List.perm_ext_iff_of_nodup hyields.distinct hcycle.distinct).mpr fun a => ?_
    have hsame := hnodes (.str (Node.policyKey a))
    rw [hof.nodes, hdof.nodes] at hsame
    simp only [List.mem_map, Json.str.injEq, exists_eq_right] at hsame
    rw [hyields.policies, hdof.policies, hsame, hkey]

theorem IsReport.namesCycle_of_isLinked {r : ConflictReport} (hr : g.IsReport table r)
    (h : g.IsLegible) (hnamed : g.HasNamedSources)
    (htable : ∀ i ∈ table, i.IsFitting) (hids : g.HasNoCollision table) {cycle : List String}
    (hcycle : IsCycle g.Requires cycle)
    (hlinked : ∀ a ∈ cycle, ∀ b ∈ cycle, a ≠ b → g.IsLinked a b) : NamesCycle r cycle :=
  IsReportOf.namesCycle_of_isLinked hr h hnamed htable (hids.among _) (by simp [ConflictKind.all])
    hcycle hlinked

/-- Over the graph of a payload detection gives a report; unless identifiers of candidates collide,
the report names a cycle of requirements exactly where an edge links any two of its policies, and
so it always does where the cycle has at most three. -/
theorem detect_circularity {payload : Json} (hg : (RuleSet.compile cfg payload).outcome = .ok g)
    (htable : ∀ i ∈ table, i.IsFitting) (hids : g.HasNoCollision table) {cycle : List String}
    (hcycle : IsCycle g.Requires cycle) :
    ∃ r, (g.detect table none none).outcome = .ok r ∧
      (NamesCycle r cycle ↔ ∀ a ∈ cycle, ∀ b ∈ cycle, a ≠ b → g.IsLinked a b) ∧
      (cycle.length ≤ 3 → NamesCycle r cycle) := by
  obtain ⟨p, h, hnamed⟩ := exists_named_plan hg
  obtain ⟨r, hr, hreport⟩ := h.isLegible.exists_report (h.passIsSound hnamed htable)
  have hnames := hreport.namesCycle_of_isLinked h.isLegible (h.hasNamedSources hnamed) htable hids
    hcycle
  refine ⟨r, hr, ⟨fun hr a ha b hb hne => ?_, hnames⟩,
    fun hlength => hnames fun a ha b hb hne => ?_⟩
  · exact hreport.isLinked_of_namesCycle h.isLegible (h.hasNamedSources hnamed) htable hr ha hb hne
  · rcases hcycle.related_of_length_le hlength ha hb hne with hab | hba
    · exact isLinked_of_requires hab
    · exact (isLinked_of_requires hba).symm

end Requirements

section Rounds

/-- The policies of a list, each with the next one, and the last one with the first. -/
def roundLinks (ps : List String) : List (String × String) := ps.zip (ps.drop 1 ++ ps.take 1)

/-- The payload of policies without rules that require each other in turn. -/
def roundPayload (ps : List String) : Json :=
  .obj [("documents", .arr ((roundLinks ps).map fun l =>
    .obj [("policy_id", .str l.1), ("requires", .arr [.str l.2])]))]

/-- The rule set of policies without rules that require each other in turn. -/
def roundRules (ps : List String) : RuleSet where
  documents := (roundLinks ps).map fun l => { policy := l.1, prerequisites := [l.2] }

/-- The plan of policies without rules that require each other in turn. -/
def roundPlan (ps : List String) : Plan := ⟨(roundRules ps).documents, []⟩

variable {ps : List String}

theorem IsDrawnFrom.requires_round (h : g.IsDrawnFrom cfg (roundPlan ps)) {a b : String} :
    g.Requires a b ↔ (a, b) ∈ roundLinks ps := by
  rw [h.requires_iff]
  simp [roundPlan, roundRules]

/-- In a round every policy depends on the one that it requires, and nothing else does. -/
theorem IsDrawnFrom.dependsOn_round (h : g.IsDrawnFrom cfg (roundPlan ps)) {s t : String}
    (hst : g.DependsOn s t) :
    ∃ a b, s = Node.policyKey a ∧ t = Node.policyKey b ∧ g.Requires a b := by
  obtain ⟨e, he, hrelation, hsource, htarget⟩ := hst
  obtain ⟨n, x, hx, rfl⟩ := h.mem_edges.mp he
  have hdraft : x ∈ (roundPlan ps).documents.flatMap Plan.mentionDrafts := by
    have hmem := Plan.mem_drawn.mp (List.mem_of_getElem? hx)
    simpa [Plan.drafts, roundPlan, roundRules, Plan.rootsOf, Plan.rootDrafts] using hmem
  obtain ⟨d, hd, hx⟩ := List.mem_flatMap.mp hdraft
  rcases List.mem_append.mp hx with hx | hx
  · obtain ⟨b, hb, rfl⟩ := List.mem_map.mp hx
    refine ⟨d.policy, b, by simpa [Draft.toEdge, eq_comm] using hsource,
      by simpa [Draft.toEdge, eq_comm] using htarget, h.requires_iff.mpr ⟨d, hd, rfl, ?_⟩⟩
    exact (Plan.mem_firstTexts.mp hb).1
  · obtain ⟨b, -, rfl⟩ := List.mem_map.mp hx
    cases hrelation

/-- Where policies require each other in turn, every cycle passes all of them. -/
theorem IsDrawnFrom.mem_cycle_round (h : g.IsDrawnFrom cfg (roundPlan ps))
    (hcycle : IsCycle g.Requires ps) {ks : List String} (hks : IsCycle g.DependsOn ks)
    {s : String} : s ∈ ks ↔ s ∈ ps.map Node.policyKey := by
  have hmem : ∀ s ∈ ks, ∃ a ∈ ps, s = Node.policyKey a := by
    intro s hs
    obtain ⟨t, -, hst⟩ := hks.exists_next hs
    obtain ⟨a, b, rfl, -, hab⟩ := h.dependsOn_round hst
    exact ⟨a, (List.of_mem_zip (h.requires_round.mp hab)).1, rfl⟩
  -- a policy requires one policy only, so that a cycle cannot leave the round
  have hstep : ∀ a b, g.Requires a b → Node.policyKey a ∈ ks → Node.policyKey b ∈ ks := by
    intro a b hab ha
    obtain ⟨t, ht, hst⟩ := hks.exists_next ha
    obtain ⟨a', b', heq, rfl, hab'⟩ := h.dependsOn_round hst
    obtain rfl := Node.policyKey_inj.mp heq
    obtain ⟨d, hd, hda, hdb⟩ := h.requires_iff.mp hab
    obtain ⟨e, he, hea, heb⟩ := h.requires_iff.mp hab'
    obtain rfl := Plan.document_eq h.sound hd he (hda.trans hea.symm)
    obtain ⟨l, -, rfl⟩ := List.mem_map.mp hd
    rw [List.mem_singleton] at hdb heb
    rwa [hdb, ← heb]
  obtain ⟨t, r, rfl, -⟩ := hks.closed
  obtain ⟨a, ha, rfl⟩ := hmem t (by simp)
  have hevery := hcycle.forall_of_mem (P := fun a => Node.policyKey a ∈ _) hstep ha (by simp)
  rw [List.mem_map]
  constructor
  · intro hs
    obtain ⟨b, hb, rfl⟩ := hmem s hs
    exact ⟨b, hb, rfl⟩
  · rintro ⟨b, hb, rfl⟩
    exact hevery b hb

/-- Where policies require each other in turn, identifiers do not collide. -/
theorem IsDrawnFrom.hasNoCollision_round (h : g.IsDrawnFrom cfg (roundPlan ps))
    (hnamed : AreNamed (roundPlan ps).documents) (htable : ∀ i ∈ table, i.IsFitting)
    (hcycle : IsCycle g.Requires ps) : g.HasNoCollision table := by
  have hcircular : ∀ k c, g.Gives table k c → ∃ ks, IsCycle g.DependsOn ks ∧ c.IsOfCycle g ks := by
    intro k c hc
    rcases ((h.passIsSound hnamed htable k).isSound hc).condition with rfl | ⟨n, hn, hkind⟩
    · exact h.isLegible.isOfCycle (h.hasNamedSources hnamed) hc
    · obtain ⟨q, hq, -⟩ := h.eq_of_condition hn hkind
      simp [Plan.placed, roundPlan, Plan.rootsOf, Rule.walkAll] at hq
  intro k l c d id hc hd _ _
  obtain ⟨ks, hks, hof⟩ := hcircular k c hc
  obtain ⟨ls, hls, hdof⟩ := hcircular l d hd
  refine ⟨hof.sound.kind.trans hdof.sound.kind.symm, fun n => ?_⟩
  rw [hof.nodes, hdof.nodes]
  simp only [List.mem_map, h.mem_cycle_round hcycle hks, h.mem_cycle_round hcycle hls]

/-- Two policies that require each other are reported as a cycle. -/
theorem detect_circularity_round : ∃ g : PolicyGraph,
    (RuleSet.compile .standard (roundPayload ["a", "b"])).outcome = .ok g ∧
      ∃ r, (g.detect Impossibility.standard none none).outcome = .ok r ∧
        NamesCycle r ["a", "b"] := by
  obtain ⟨g, hvalid, hbuild, h⟩ : ∃ g, (roundRules ["a", "b"]).validate .standard = .ok _ ∧
      ((roundRules ["a", "b"]).build .standard).outcome = .ok g ∧
      g.IsDrawnFrom .standard (roundPlan ["a", "b"]) :=
    exists_build (by decide +kernel) rfl (by decide +kernel)
  have hg : (RuleSet.compile .standard (roundPayload ["a", "b"])).outcome = .ok g :=
    (outcome_compile rfl hvalid).trans hbuild
  have hcycle : IsCycle g.Requires ["a", "b"] := by
    refine ⟨by decide, "a", ["b"], rfl, ?_⟩
    simp [h.requires_round, roundLinks]
  have hids := h.hasNoCollision_round (by decide) Impossibility.standard_fits hcycle
  obtain ⟨r, hr, -, hshort⟩ := detect_circularity hg Impossibility.standard_fits hids hcycle
  exact ⟨g, hg, r, hr, hshort (by decide)⟩

/-- A cycle of four policies that no edge crosses is not reported. -/
theorem not_forall_namesCycle : ¬ ∀ (cfg : Settings) (payload : Json) (g : PolicyGraph)
    (cycle : List String), (RuleSet.compile cfg payload).outcome = .ok g →
      g.HasNoCollision Impossibility.standard → IsCycle g.Requires cycle →
      ∃ r, (g.detect Impossibility.standard none none).outcome = .ok r ∧ NamesCycle r cycle := by
  intro hall
  obtain ⟨g, hvalid, hbuild, h⟩ : ∃ g,
      (roundRules ["a", "b", "c", "d"]).validate .standard = .ok _ ∧
      ((roundRules ["a", "b", "c", "d"]).build .standard).outcome = .ok g ∧
      g.IsDrawnFrom .standard (roundPlan ["a", "b", "c", "d"]) :=
    exists_build (by decide +kernel) rfl (by decide +kernel)
  have hnamed : AreNamed (roundPlan ["a", "b", "c", "d"]).documents := by decide
  have hcycle : IsCycle g.Requires ["a", "b", "c", "d"] := by
    refine ⟨by decide, "a", ["b", "c", "d"], rfl, ?_⟩
    simp [h.requires_round, roundLinks]
  have hids := h.hasNoCollision_round hnamed Impossibility.standard_fits hcycle
  have hg : (RuleSet.compile .standard (roundPayload ["a", "b", "c", "d"])).outcome = .ok g :=
    (outcome_compile rfl hvalid).trans hbuild
  obtain ⟨r, hr, hnames⟩ := hall .standard _ g _ hg hids hcycle
  obtain ⟨r', hr', hreport⟩ :=
    h.isLegible.exists_report (h.passIsSound hnamed Impossibility.standard_fits)
  obtain rfl := Except.ok.inj (hr.symm.trans hr')
  have hlinked : g.IsLinked "a" "c" := hreport.isLinked_of_namesCycle h.isLegible
    (h.hasNamedSources hnamed) Impossibility.standard_fits hnames (by simp) (by simp) (by simp)
  have hnot : ¬ ∃ d ∈ (roundPlan ["a", "b", "c", "d"]).drafts, d.Links "a" "c" := by decide +kernel
  exact hnot (h.isLinked_iff.mp hlinked)

end Rounds

end PolicyGraph
end Eligibility
