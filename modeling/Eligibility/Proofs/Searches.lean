import Eligibility.Proofs.Resemblance
/-!
# Searches through the paths of policies

**Traces.**  The searches for contradictions and for impossibilities note a pair of conditions once.
What they would find without notes is their trace: what each item gives to an empty search, one
item after the other.  A search finds the first candidates of its trace.

**Order.**  In graphs that resemble each other the trace has the same candidates.  A contradiction
is critical wherever it is met, so that the first candidates leave the same as any others.

**Results.**
* `Follows`: what a search found, against its trace.
* `Follows.tellsNodes`: in a trace identifiers tell the nodes, unless they collide.
* `exists_contradictions_trace`: the search for contradictions follows its trace.
* `passAgrees_contradiction`: the passes over contradictions agree over such graphs.
-/

namespace Eligibility

open Conflict

namespace PolicyGraph

variable {g h : PolicyGraph} {k : ConflictKind} {table : List Impossibility}

section Traces

/-- What a search found and the pairs it noted, against its trace: it found candidates of the trace,
among them one about the nodes of each candidate, and the first ones leave what the first ones of
the trace leave. -/
structure Follows (g : PolicyGraph) (k : ConflictKind) (pairs : List (Name × Name))
    (found trace : List Candidate) : Prop where
  lone : ∀ c ∈ trace, c.IsLone g k
  subset : found ⊆ trace
  pairs : ∀ q ∈ pairs, ∃ c ∈ found, c.nodes = [q.1, q.2]
  nodes : ∀ c ∈ trace, ∃ d ∈ found, d.nodes = c.nodes
  firsts : SameFirsts (g.gists found) (g.gists trace)

variable {pairs : List (Name × Name)} {found trace : List Candidate} {c : Candidate}

theorem Follows.nil (g : PolicyGraph) (k : ConflictKind) : Follows g k [] [] [] :=
  ⟨by simp, by simp, by simp, by simp, fun _ => rfl⟩

/-- A search that leaves out a candidate about nodes that it noted follows its trace. -/
theorem Follows.skip (hs : Follows g k pairs found trace) (hc : c.IsLone g k) {q : Name × Name}
    (hq : q ∈ pairs) (hnodes : c.nodes = [q.1, q.2]) : Follows g k pairs found (trace ++ [c]) := by
  obtain ⟨d, hd, hdnodes⟩ := hs.pairs q hq
  have hlone := hs.lone d (hs.subset hd)
  obtain ⟨x, hx⟩ := hc.exists_mark
  obtain ⟨y, hy⟩ := hlone.exists_mark
  have hid : y.id = x.id := hlone.id_eq_of_nodes hc (hdnodes.trans hnodes.symm) hy hx
  refine ⟨List.forall_mem_append.mpr ⟨hs.lone, List.forall_mem_singleton.mpr hc⟩,
    List.Subset.trans hs.subset (List.subset_append_left _ _), hs.pairs,
    List.forall_mem_append.mpr ⟨hs.nodes, List.forall_mem_singleton.mpr
      ⟨d, hd, hdnodes.trans hnodes.symm⟩⟩, fun id => ?_⟩
  have hlast : g.gists [c] = [x] := by simp [gists, hx]
  rw [gists_append, hlast, first?, first?, List.find?_append, ← first?, ← first?, ← hs.firsts id]
  by_cases hxid : x.id = id
  · obtain ⟨z, hz⟩ : ∃ z, first? (g.gists found) id = some z :=
      Option.isSome_iff_exists.mp (List.find?_isSome.mpr
        ⟨y, mem_gists.mpr ⟨d, hd, hy⟩, by simp [hid, hxid]⟩)
    rw [hz, Option.some_or]
  · rw [List.find?_cons_of_neg (by simpa using hxid), List.find?_nil, Option.or_none]

/-- A search that adds a candidate follows its trace. -/
theorem Follows.add (hs : Follows g k pairs found trace) (hc : c.IsLone g k) {q : Name × Name}
    (hnodes : c.nodes = [q.1, q.2]) :
    Follows g k (pairs ++ [q]) (found ++ [c]) (trace ++ [c]) := by
  refine ⟨List.forall_mem_append.mpr ⟨hs.lone, List.forall_mem_singleton.mpr hc⟩,
    List.append_subset.mpr ⟨List.Subset.trans hs.subset (List.subset_append_left _ _),
      List.subset_append_right _ _⟩, List.forall_mem_append.mpr ⟨fun q hq => ?_, ?_⟩,
    List.forall_mem_append.mpr ⟨fun d hd => ?_, ?_⟩, ?_⟩
  · exact (hs.pairs q hq).imp fun _ hd => ⟨List.mem_append_left _ hd.1, hd.2⟩
  · exact List.forall_mem_singleton.mpr ⟨c, by simp, hnodes⟩
  · exact (hs.nodes d hd).imp fun _ he => ⟨List.mem_append_left _ he.1, he.2⟩
  · exact List.forall_mem_singleton.mpr ⟨c, by simp, rfl⟩
  · rw [gists_append, gists_append]
    exact hs.firsts.append fun _ => rfl

/-- What two searches that follow their traces leave agrees where the traces leave the same gists and,
if identifiers are clear, the same first ones. -/
theorem Follows.passAgrees {pairs' : List (Name × Name)} {found' trace' : List Candidate}
    (hs : Follows g k pairs found trace) (hs' : Follows h k pairs' found' trace')
    (hfound : g.candidates table k = .ok found) (hfound' : h.candidates table k = .ok found')
    (hmem : ∀ x, x ∈ g.gists trace ↔ x ∈ h.gists trace') {clear : Prop}
    (hfirsts : clear → SameFirsts (g.gists trace) (h.gists trace')) :
    PassAgrees table clear g h k := by
  have hmarked : ∀ {g : PolicyGraph} {cs : List Candidate}, (∀ c ∈ cs, c.IsLone g k) →
      (cs.map (·.mark g)).count none = 0 := by
    intro g cs hcs
    refine List.count_eq_zero.mpr fun hnone => ?_
    obtain ⟨c, hc, hmark⟩ := List.mem_map.mp hnone
    obtain ⟨x, hx⟩ := (hcs c hc).exists_mark
    rw [hx] at hmark
    cases hmark
  refine ⟨found, found', hfound, hfound', fun c hc => (hs.lone c (hs.subset hc)).sound,
    fun c hc => (hs'.lone c (hs'.subset hc)).sound, fun id => ?_, ?_, fun hclear id => ?_⟩
  · exact ((hs.firsts.sameIds id).trans (sameIds_of_mem hmem id)).trans
      (hs'.firsts.sameIds id).symm
  · rw [hmarked fun c hc => hs.lone c (hs.subset hc),
      hmarked fun c hc => hs'.lone c (hs'.subset hc)]
  · exact ((hs.firsts id).trans (hfirsts hclear id)).trans (hs'.firsts id).symm

/-- Unless identifiers collide, those of a trace tell the nodes. -/
theorem Follows.tellsNodes (hs : Follows g k pairs found trace)
    (hfound : g.candidates table k = .ok found) {ks : List ConflictKind} (hk : k ∈ ks)
    (hids : g.HasNoCollisionAmong table ks) : g.TellsNodes trace := by
  have hmet : ∀ {c : Candidate} {x : Gist}, c ∈ trace → c.mark g = some x →
      ∃ e ∈ found, e.nodes = c.nodes ∧ ∃ z, e.mark g = some z ∧ z.id = x.id := by
    intro c x hc hx
    obtain ⟨e, he, hnodes⟩ := hs.nodes c hc
    have hlone := hs.lone e (hs.subset he)
    obtain ⟨z, hz⟩ := hlone.exists_mark
    exact ⟨e, he, hnodes, z, hz, hlone.id_eq_of_nodes (hs.lone c hc) hnodes hz hx⟩
  intro c hc d hd x y hx hy hid n
  obtain ⟨e, he, henodes, z, hz, hzid⟩ := hmet hc hx
  obtain ⟨f, hf, hfnodes, w, hw, hwid⟩ := hmet hd hy
  rw [← henodes, ← hfnodes]
  exact tellsNodes_of_candidates hfound hk hids e he f hf z w hz hw
    (hzid.trans (hid.trans hwid.symm)) n

/-- Whether a candidate is that of two literals of one policy. -/
structure IsLoneOf (g : PolicyGraph) (k : ConflictKind) (severity : Severity) (policy : Name)
    (l m : Literal) (c : Candidate) : Prop where
  lone : c.IsLone g k
  nodes : ∀ n, n ∈ c.nodes ↔ n = l.node.id ∨ n = m.node.id
  clauses : c.clauses = [l.clause, m.clause]
  policies : c.policies = [policy]
  severity : c.severity = severity
  entities : c.entities = true

/-- Candidates of literals at two sites that are equally bad and about the same nodes leave the
same. -/
theorem IsLoneOf.mark_eq {severity : Severity} {t u : Site} {l m l' m' : Literal} {d : Candidate}
    (hc : g.IsLoneOf k severity t.policy l m c) (hd : g.IsLoneOf k severity u.policy l' m' d)
    (hg : g.IsLegible) (howned : g.IsOwned) (ht : t ∈ g.sites) (hu : u ∈ g.sites)
    (hl : l ∈ t.path.literals) (hm : m ∈ t.path.literals) (hl' : l' ∈ u.path.literals)
    (hm' : m' ∈ u.path.literals) (hnodes : ∀ n, n ∈ c.nodes ↔ n ∈ d.nodes) :
    c.mark g = d.mark g := by
  have hliterals : ∀ {t : Site} {l m : Literal} {c : Candidate}, t ∈ g.sites →
      l ∈ t.path.literals → m ∈ t.path.literals → g.IsLoneOf k severity t.policy l m c →
      c.IsOfLiterals l m := by
    intro t l m c ht hl hm hc
    refine ⟨hc.nodes, fun n => by rw [hc.clauses]; exact List.mem_pair, fun n => ?_, hc.entities⟩
    rw [howned.sites t ht l hl, howned.sites t ht m hm, hc.policies, or_self, List.mem_singleton]
  have hleft := isOn_of_mem_sites ht
  have hright := isOn_of_mem_sites hu
  exact (hliterals ht hl hm hc).mark_eq (hliterals hu hl' hm' hd) hg (hleft l hl) (hleft m hm)
    (hright l' hl') (hright m' hm') hc.lone.sound hd.lone.sound
    (hc.severity.trans hd.severity.symm) hnodes (fun _ => rfl) fun _ _ _ _ => Iff.rfl

end Traces

section Contradictions

/-- The candidates of a literal beside a leaf. -/
def contradictionsBeside (policy : Name) (leaf other : Literal) : List Candidate :=
  given ((contradictionStep policy leaf {} other).map PairSearch.found)

/-- The candidates of all literals beside a leaf on its variable, site after site. -/
def contradictionTrace (g : PolicyGraph) : List Candidate :=
  g.sites.flatMap fun t =>
    (t.path.context.filter fun l => l.subject.alike t.path.leaf.subject).flatMap
      (contradictionsBeside t.policy t.path.leaf)

theorem mem_contradictionTrace {c : Candidate} : c ∈ g.contradictionTrace ↔
    ∃ t ∈ g.sites, ∃ l ∈ t.path.context, l.subject.alike t.path.leaf.subject = true ∧
      c ∈ contradictionsBeside t.policy t.path.leaf l := by
  simp only [contradictionTrace, List.mem_flatMap, List.mem_filter, and_assoc]

theorem PairSearch.mem_of_hasSeen {s : PairSearch} {u v : String}
    (h : s.hasSeen (.str u) (.str v) = true) : (.str u, .str v) ∈ s.seen := by
  obtain ⟨q, hq, halike⟩ := List.any_eq_true.mp h
  rw [Bool.and_eq_true, Json.alike_str_right, Json.alike_str_right] at halike
  rwa [← halike.1, ← halike.2]

/-- A literal beside a leaf gives candidates of the two, and a search that meets it follows its
trace. -/
theorem IsLegible.contradictionsBeside_spec (hg : g.IsLegible) {t : Site} (ht : t ∈ g.sites)
    {other : Literal} (hother : other ∈ t.path.context) :
    (∀ c ∈ contradictionsBeside t.policy t.path.leaf other,
      g.IsLoneOf .contradiction .critical t.policy t.path.leaf other c) ∧
    ∀ (s : PairSearch) (trace : List Candidate), Follows g .contradiction s.seen s.found trace →
      ∃ s', contradictionStep t.policy t.path.leaf s other = .ok s' ∧
        Follows g .contradiction s'.seen s'.found
          (trace ++ contradictionsBeside t.policy t.path.leaf other) := by
  obtain ⟨a, hpolicy, ha⟩ := hg.exists_policy_of_site ht
  obtain ⟨hleafOn, hcontextOn⟩ := List.forall_mem_cons.mp (isOn_of_mem_sites ht)
  have hotherOn := hcontextOn other hother
  have hleafNode := hg.isComparison hleafOn
  have hotherNode := hg.isComparison hotherOn
  obtain ⟨x, hx⟩ := hleafNode.exists_id
  obtain ⟨y, hy⟩ := hotherNode.exists_id
  obtain ⟨u, v, hsorted, hperm⟩ := Name.exists_sorted_pair x y
  rw [← hx, ← hy] at hsorted
  have hmem : ∀ n, n ∈ [Json.str u, .str v] ↔ n = t.path.leaf.node.id ∨ n = other.node.id := by
    intro n
    rw [hx, hy, ← List.mem_pair]
    exact (hperm.map Json.str).mem_iff
  obtain ⟨i, -, hi, -⟩ := hleafNode.exists_condition
  obtain ⟨j, -, hj, -⟩ := hotherNode.exists_condition
  obtain ⟨b, hb⟩ := Condition.exists_jointly (hleafNode.isFitting hi) (hotherNode.isFitting hj)
  obtain ⟨s1, hs1⟩ := hleafNode.exists_describe
  obtain ⟨s2, hs2⟩ := hotherNode.exists_describe
  obtain ⟨e1, he1⟩ := hleafNode.exists_evidence
  obtain ⟨e2, he2⟩ := hotherNode.exists_evidence
  obtain ⟨c, hc, hof, hnodes⟩ : ∃ c, contradictionCandidate t.policy (.str u) (.str v) t.path.leaf
      other = .ok c ∧ g.IsLoneOf .contradiction .critical t.policy t.path.leaf other c ∧
        c.nodes = [.str u, .str v] := by
    simp only [contradictionCandidate, hs1, hs2, he1, he2, Attempt.ok_bind]
    refine ⟨_, rfl, ⟨⟨hg.isSound_of_pair hleafOn hotherOn rfl (fun n hn => (hmem n).mp hn) rfl ?_,
      a, by rw [hpolicy]⟩, hmem, rfl, rfl, rfl, rfl⟩, rfl⟩
    exact fun n hn => ⟨a, by rw [List.mem_singleton.mp hn, hpolicy], ha⟩
  have hstep : ∀ s : PairSearch, contradictionStep t.policy t.path.leaf s other =
      if s.hasSeen (.str u) (.str v) || (Json.str u).same (.str v) then .ok s
      else if b then .ok s else .ok ⟨s.seen ++ [(.str u, .str v)], s.found ++ [c]⟩ := by
    intro s
    rw [contradictionStep, hsorted, Attempt.ok_bind]
    dsimp only
    split
    · rfl
    · rw [hi, Attempt.ok_bind, hj, Attempt.ok_bind, hb, Attempt.ok_bind, hc]
      rfl
  have hbeside : contradictionsBeside t.policy t.path.leaf other =
      if (Json.str u).same (.str v) || b then [] else [c] := by
    have hempty : PairSearch.hasSeen {} (.str u) (.str v) = false := rfl
    rw [contradictionsBeside, hstep, hempty]
    cases (Json.str u).same (.str v) <;> cases b <;> rfl
  refine ⟨fun d hd => ?_, fun s trace hs => ?_⟩
  · rw [hbeside] at hd
    split at hd
    · simp at hd
    · rw [List.mem_singleton.mp hd]
      exact hof
  · rw [hstep, hbeside]
    by_cases hnone : ((Json.str u).same (.str v) || b) = true
    · refine ⟨s, ?_, by rwa [if_pos hnone, List.append_nil]⟩
      cases hsame : (Json.str u).same (.str v) <;> cases b <;> simp_all
    · obtain ⟨hsame, rfl⟩ : (Json.str u).same (.str v) = false ∧ b = false := by simpa using hnone
      rw [if_neg hnone, hsame, Bool.or_false]
      cases hseen : s.hasSeen (.str u) (.str v) with
      | true => exact ⟨s, rfl, hs.skip hof.lone (PairSearch.mem_of_hasSeen hseen) hnodes⟩
      | false => exact ⟨_, rfl, hs.add hof.lone hnodes⟩

/-- The search for contradictions follows its trace. -/
theorem IsLegible.exists_contradictions_trace (hg : g.IsLegible) :
    ∃ pairs found, g.contradictions = .ok found ∧
      Follows g .contradiction pairs found g.contradictionTrace := by
  obtain ⟨s, hs, hfollows⟩ : ∃ s : PairSearch,
      g.sites.foldlM (fun s t => contradictionPath t.policy s t.path) {} = .ok s ∧
        Follows g .contradiction s.seen s.found ([] ++ g.contradictionTrace) := by
    refine Attempt.exists_foldlM_collects
      (R := fun s : PairSearch => Follows g .contradiction s.seen s.found) (Follows.nil g _)
      fun s trace hs t ht => ?_
    refine Attempt.exists_foldlM_collects
      (R := fun s : PairSearch => Follows g .contradiction s.seen s.found) hs
      fun s trace hs l hl => ?_
    exact (hg.contradictionsBeside_spec ht (List.mem_of_mem_filter hl)).2 s trace hs
  refine ⟨s.seen, s.found, ?_, hfollows⟩
  have hsearch : (g.policyIds false).foldlM g.contradictionPolicy {} = .ok s :=
    (hg.foldlM_sites (fun a s p => contradictionPath a s p) {}).trans hs
  rw [contradictions, hsearch, Attempt.map_ok]

/-- The passes over contradictions agree over graphs that resemble each other. -/
theorem passAgrees_contradiction (hg : g.IsLegible) (hh : h.IsLegible) (hgh : g.Resembles h)
    (howned : g.IsOwned) {ks : List ConflictKind} (hk : .contradiction ∈ ks) :
    PassAgrees table (g.HasNoCollisionAmong table ks) g h .contradiction := by
  obtain ⟨pairs, found, hfound, hs⟩ := hg.exists_contradictions_trace
  obtain ⟨pairs', found', hfound', hs'⟩ := hh.exists_contradictions_trace
  have htrace : ∀ {g h : PolicyGraph}, g.Resembles h →
      ∀ c ∈ g.contradictionTrace, c ∈ h.contradictionTrace := by
    intro g h hgh c hc
    obtain ⟨t, ht, l, hl, hsubject, hc⟩ := mem_contradictionTrace.mp hc
    obtain ⟨u, hu, hpolicy, hpath⟩ := hgh.sites t ht
    rw [hpath.leaf] at hsubject hc
    rw [hpolicy] at hc
    exact mem_contradictionTrace.mpr ⟨u, hu, l, (hpath.context l).mp hl, hsubject, hc⟩
  have hmark : ∀ c ∈ g.contradictionTrace, c.mark g = c.mark h := fun c hc =>
    (hs.lone c hc).mark_eq (hs'.lone c (htrace hgh c hc)).sound hgh.clauses
  have hmem : ∀ x, x ∈ g.gists g.contradictionTrace ↔ x ∈ h.gists h.contradictionTrace := by
    intro x
    rw [mem_gists, mem_gists]
    constructor
    · rintro ⟨c, hc, hcx⟩
      exact ⟨c, htrace hgh c hc, hmark c hc ▸ hcx⟩
    · rintro ⟨c, hc, hcx⟩
      have hc' := htrace hgh.symm c hc
      exact ⟨c, hc', (hmark c hc').trans hcx⟩
  refine hs.passAgrees hs' hfound hfound' hmem fun hids => IsFunctional.sameFirsts ?_ hmem
  refine (hs.tellsNodes hfound hk hids).isFunctional (List.Subset.refl _)
    fun c hc d hd hnodes => ?_
  obtain ⟨t, ht, l, hl, -, hc⟩ := mem_contradictionTrace.mp hc
  obtain ⟨u, hu, m, hm, -, hd⟩ := mem_contradictionTrace.mp hd
  exact ((hg.contradictionsBeside_spec ht hl).1 c hc).mark_eq
    ((hg.contradictionsBeside_spec hu hm).1 d hd) hg howned ht hu List.mem_cons_self
    (List.mem_cons_of_mem _ hl) List.mem_cons_self (List.mem_cons_of_mem _ hm) hnodes

end Contradictions

end PolicyGraph
end Eligibility
