import Eligibility.Proofs.Searches
/-!
# The search for impossibilities

**Traces.**  At every site and under every entry of the table the search looks at pairs of literals
of which one implies the first side of the entry and the other one the second side.

**Order.**  An impossibility is as bad as the first entry of the table that excludes it.  The
literals of a policy on the same conditions are the same ones at all its sites, so that a pair is
excluded by the same entries wherever it is met, and the first one does not depend on the site.

**Results.**
* `exists_impossibilities_trace`: the search for impossibilities follows its trace.
* `leading?_eq`: sites with a gist of an identifier have the same first one.
* `passAgrees_impossibility`: the passes over impossibilities agree over graphs that resemble each
  other.
-/

namespace Eligibility

open Conflict

namespace PolicyGraph

variable {g h : PolicyGraph} {table : List Impossibility}

section Traces

/-- Whether a literal implies a constraint. -/
def Implies (l : Literal) (k : Constraint) : Prop :=
  (l.condition >>= fun d => d.implies (Condition.ofConstraint k)) = .ok true

/-- The candidates of two literals under an entry. -/
def impossibilitiesOf (policy : Name) (i : Impossibility) (j : Nat) (x : Literal × Literal) :
    List Candidate :=
  given ((impossibilityPair policy j i {} x).map TableSearch.found)

/-- The candidates of a site under an entry. -/
def impossibilitiesAt (t : Site) (e : Impossibility × Nat) : List Candidate :=
  ((given (implying e.1.first t.path.literals)).flatMap fun a =>
    (given (implying e.1.second t.path.literals)).map fun b => (a, b)).flatMap
      (impossibilitiesOf t.policy e.1 e.2)

/-- The candidates of all sites under all entries, site after site. -/
def impossibilityTrace (table : List Impossibility) (g : PolicyGraph) : List Candidate :=
  g.sites.flatMap fun t => table.zipIdx.flatMap (impossibilitiesAt t)

theorem mem_impossibilityTrace {c : Candidate} : c ∈ g.impossibilityTrace table ↔
    ∃ t ∈ g.sites, ∃ e ∈ table.zipIdx, c ∈ impossibilitiesAt t e := by
  simp only [impossibilityTrace, List.mem_flatMap]

theorem TableSearch.mem_of_hasSeen {s : TableSearch} {j : Nat} {u v : String}
    (h : s.hasSeen j (.str u) (.str v) = true) : (.str u, .str v) ∈ s.seen.map (·.2) := by
  obtain ⟨q, hq, halike⟩ := List.any_eq_true.mp h
  rw [Bool.and_eq_true, Bool.and_eq_true, Json.alike_str_right, Json.alike_str_right] at halike
  exact List.mem_map.mpr ⟨q, hq, Prod.ext halike.1.2 halike.2⟩

/-- Two literals under an entry give candidates of the two, and a search that meets them follows its
trace. -/
theorem IsLegible.impossibilitiesOf_spec (hg : g.IsLegible) {t : Site} (ht : t ∈ g.sites)
    (i : Impossibility) (j : Nat) {l m : Literal} (hl : l ∈ t.path.literals)
    (hm : m ∈ t.path.literals) :
    (∀ c ∈ impossibilitiesOf t.policy i j (l, m),
      g.IsLoneOf .impossibility i.severity t.policy l m c) ∧
    ∀ (s : TableSearch) (trace : List Candidate),
      Follows g .impossibility (s.seen.map (·.2)) s.found trace →
      ∃ s', impossibilityPair t.policy j i s (l, m) = .ok s' ∧
        Follows g .impossibility (s'.seen.map (·.2)) s'.found
          (trace ++ impossibilitiesOf t.policy i j (l, m)) := by
  obtain ⟨a, hpolicy, ha⟩ := hg.exists_policy_of_site ht
  have hlOn := isOn_of_mem_sites ht l hl
  have hmOn := isOn_of_mem_sites ht m hm
  have hlNode := hg.isComparison hlOn
  have hmNode := hg.isComparison hmOn
  obtain ⟨u, hu⟩ := hlNode.exists_id
  obtain ⟨v, hv⟩ := hmNode.exists_id
  obtain ⟨s1, hs1⟩ := hlNode.exists_describe
  obtain ⟨s2, hs2⟩ := hmNode.exists_describe
  obtain ⟨e1, he1⟩ := hlNode.exists_evidence
  obtain ⟨e2, he2⟩ := hmNode.exists_evidence
  obtain ⟨c, hc, hof, hnodes⟩ : ∃ c, impossibilityCandidate t.policy i l m = .ok c ∧
      g.IsLoneOf .impossibility i.severity t.policy l m c ∧ c.nodes = [.str u, .str v] := by
    simp only [impossibilityCandidate, hs1, hs2, he1, he2, Attempt.ok_bind]
    refine ⟨_, rfl, ⟨⟨hg.isSound_of_pair hlOn hmOn rfl (fun n hn => List.mem_pair.mp hn) rfl ?_,
      a, by rw [hpolicy]⟩, fun n => List.mem_pair, rfl, rfl, rfl, rfl⟩, by rw [hu, hv]⟩
    exact fun n hn => ⟨a, by rw [List.mem_singleton.mp hn, hpolicy], ha⟩
  have hstep : ∀ s : TableSearch, impossibilityPair t.policy j i s (l, m) =
      if (Json.str u).same (.str v) || s.hasSeen j (.str u) (.str v) then .ok s
      else .ok ⟨s.seen ++ [(j, .str u, .str v)], s.found ++ [c]⟩ := by
    intro s
    rw [impossibilityPair, hu, hv]
    dsimp only
    split
    · rfl
    · rw [hc]
      rfl
  have hof' : impossibilitiesOf t.policy i j (l, m) =
      if (Json.str u).same (.str v) then [] else [c] := by
    have hempty : TableSearch.hasSeen {} j (.str u) (.str v) = false := rfl
    rw [impossibilitiesOf, hstep, hempty]
    cases (Json.str u).same (.str v) <;> rfl
  refine ⟨fun d hd => ?_, fun s trace hs => ?_⟩
  · rw [hof'] at hd
    split at hd
    · simp at hd
    · rw [List.mem_singleton.mp hd]
      exact hof
  · rw [hstep, hof']
    cases hsame : (Json.str u).same (.str v) with
    | true => exact ⟨s, by simp, by simpa using hs⟩
    | false =>
        cases hseen : s.hasSeen j (.str u) (.str v) with
        | true => exact ⟨s, rfl, hs.skip hof.lone (TableSearch.mem_of_hasSeen hseen) hnodes⟩
        | false => exact ⟨_, rfl, by simpa using hs.add hof.lone hnodes⟩

/-- The literals that imply a fitting constraint. -/
theorem IsLegible.mem_implying (hg : g.IsLegible) {t : Site} (ht : t ∈ g.sites) {k : Constraint}
    (hk : k.IsFitting) {l : Literal} :
    l ∈ given (implying k t.path.literals) ↔ l ∈ t.path.literals ∧ Implies l k := by
  obtain ⟨ms, hms, -⟩ := hg.exists_implying hk (isOn_of_mem_sites ht)
  rw [hms]
  exact Attempt.mem_filterM hms l

/-- The candidates of a site under a fitting entry are those of literals that imply its sides. -/
theorem IsLegible.mem_impossibilitiesAt (hg : g.IsLegible) {t : Site} (ht : t ∈ g.sites)
    {e : Impossibility × Nat} (he : e.1.IsFitting) {c : Candidate} :
    c ∈ impossibilitiesAt t e ↔ ∃ l m, (l ∈ t.path.literals ∧ Implies l e.1.first) ∧
      (m ∈ t.path.literals ∧ Implies m e.1.second) ∧
      c ∈ impossibilitiesOf t.policy e.1 e.2 (l, m) := by
  simp only [impossibilitiesAt, List.mem_flatMap, List.mem_map, Prod.exists, Prod.mk.injEq,
    hg.mem_implying ht he.first, hg.mem_implying ht he.second]
  constructor
  · rintro ⟨l, m, ⟨l', hl, m', hm, rfl, rfl⟩, hc⟩
    exact ⟨l', m', hl, hm, hc⟩
  · rintro ⟨l, m, hl, hm, hc⟩
    exact ⟨l, m, ⟨l, hl, m, hm, rfl, rfl⟩, hc⟩

/-- Literals without one on a variable imply no constraint on it. -/
theorem implying_eq_nil {k : Constraint} {ls ms : List Literal} (hms : implying k ls = .ok ms)
    (hnone : mentions ls k.subject = false) : ms = [] := by
  refine List.eq_nil_iff_forall_not_mem.mpr fun l hl => ?_
  obtain ⟨hmem, himplies⟩ := (Attempt.mem_filterM hms l).mp hl
  obtain ⟨d, hd, himplies⟩ := Attempt.bind_eq_ok.mp himplies
  obtain ⟨o, -, rfl⟩ := Attempt.map_eq_ok.mp hd
  have hsubject : l.subject.same (.str k.subject) = false := by
    simpa using List.any_eq_false.mp hnone l hmem
  have hother : (l.node.subject).same (Condition.ofConstraint k).subject = false := hsubject
  rw [Condition.implies, hother] at himplies
  cases himplies

/-- The search under an entry follows its trace. -/
theorem IsLegible.exists_impossibilityEntry_trace (hg : g.IsLegible) {t : Site} (ht : t ∈ g.sites)
    {e : Impossibility × Nat} (he : e.1.IsFitting) (s : TableSearch) (trace : List Candidate)
    (hs : Follows g .impossibility (s.seen.map (·.2)) s.found trace) :
    ∃ s', impossibilityEntry t.policy t.path.literals s e = .ok s' ∧
      Follows g .impossibility (s'.seen.map (·.2)) s'.found (trace ++ impossibilitiesAt t e) := by
  obtain ⟨firsts, hfirsts, -⟩ := hg.exists_implying he.first (isOn_of_mem_sites ht)
  obtain ⟨seconds, hseconds, -⟩ := hg.exists_implying he.second (isOn_of_mem_sites ht)
  obtain ⟨s', hs', hfollows⟩ : ∃ s', (firsts.flatMap fun a => seconds.map fun b => (a, b)).foldlM
      (impossibilityPair t.policy e.2 e.1) s = .ok s' ∧
        Follows g .impossibility (s'.seen.map (·.2)) s'.found (trace ++
          (firsts.flatMap fun a => seconds.map fun b => (a, b)).flatMap
            (impossibilitiesOf t.policy e.1 e.2)) := by
    refine Attempt.exists_foldlM_collects
      (R := fun s : TableSearch => Follows g .impossibility (s.seen.map (·.2)) s.found) hs
      fun s trace hs x hx => ?_
    obtain ⟨a, ha, hx⟩ := List.mem_flatMap.mp hx
    obtain ⟨b, hb, rfl⟩ := List.mem_map.mp hx
    exact (hg.impossibilitiesOf_spec ht e.1 e.2 (Attempt.subset_of_filterM hfirsts ha)
      (Attempt.subset_of_filterM hseconds hb)).2 s trace hs
  have hempty : firsts = [] ∨ seconds = [] → s' = s := by
    intro hnone
    have hpairs : (firsts.flatMap fun a => seconds.map fun b => (a, b)) = [] := by
      rcases hnone with rfl | rfl <;> simp
    rw [hpairs] at hs'
    exact (Except.ok.inj hs').symm
  refine ⟨s', ?_, by rwa [impossibilitiesAt, hfirsts, hseconds]⟩
  rw [impossibilityEntry]
  split
  · next hmentions =>
    have hnone : firsts = [] ∨ seconds = [] := by
      rw [Bool.not_eq_true', Bool.and_eq_false_iff] at hmentions
      exact hmentions.imp (implying_eq_nil hfirsts) (implying_eq_nil hseconds)
    rw [hempty hnone]
    rfl
  · rw [hfirsts, Attempt.ok_bind]
    split
    · next hnil =>
      rw [hempty (.inl (List.isEmpty_iff.mp hnil))]
      rfl
    · rw [hseconds, Attempt.ok_bind, hs']

/-- The search for impossibilities follows its trace. -/
theorem IsLegible.exists_impossibilities_trace (hg : g.IsLegible)
    (htable : ∀ i ∈ table, i.IsFitting) :
    ∃ pairs found, g.impossibilities table = .ok found ∧
      Follows g .impossibility pairs found (g.impossibilityTrace table) := by
  obtain ⟨s, hs, hfollows⟩ : ∃ s : TableSearch,
      g.sites.foldlM (fun s t => table.zipIdx.foldlM
        (impossibilityEntry t.policy t.path.literals) s) {} = .ok s ∧
        Follows g .impossibility (s.seen.map (·.2)) s.found
          ([] ++ g.impossibilityTrace table) := by
    have hempty : Follows g .impossibility (({} : TableSearch).seen.map (·.2))
        ({} : TableSearch).found [] := Follows.nil g _
    refine Attempt.exists_foldlM_collects
      (R := fun s : TableSearch => Follows g .impossibility (s.seen.map (·.2)) s.found) hempty
      fun s trace hs t ht => ?_
    refine Attempt.exists_foldlM_collects
      (R := fun s : TableSearch => Follows g .impossibility (s.seen.map (·.2)) s.found) hs
      fun s trace hs e he => ?_
    have hfits := htable _ (List.fst_mem_of_mem_zipIdx he)
    exact hg.exists_impossibilityEntry_trace ht hfits s trace hs
  refine ⟨s.seen.map (·.2), s.found, ?_, hfollows⟩
  have hsearch : (g.policyIds false).foldlM (g.impossibilityPolicy table) {} = .ok s :=
    (hg.foldlM_sites (fun a s p => table.zipIdx.foldlM (impossibilityEntry a p.literals) s)
      {}).trans hs
  rw [impossibilities, hsearch, Attempt.map_ok]

end Traces

section Firsts

theorem findSome?_congr {α γ : Type} {xs : List α} {f f' : α → Option γ}
    (h : ∀ x ∈ xs, f x = f' x) : xs.findSome? f = xs.findSome? f' := by
  induction xs with
  | nil => rfl
  | cons x r ih =>
      obtain ⟨hx, hr⟩ := List.forall_mem_cons.mp h
      rw [List.findSome?_cons, List.findSome?_cons, hx, ih hr]

/-- Lists whose items give the same values, and no two of them, give the same first one. -/
theorem findSome?_eq_of_same {α β γ : Type} {xs : List α} {ys : List β} {f : α → Option γ}
    {f' : β → Option γ} (hxy : ∀ x ∈ xs, ∃ y ∈ ys, f x = f' y)
    (hyx : ∀ y ∈ ys, ∃ x ∈ xs, f x = f' y)
    (hone : ∀ x ∈ xs, ∀ y ∈ xs, ∀ a b, f x = some a → f y = some b → a = b) :
    xs.findSome? f = ys.findSome? f' := by
  cases hx : xs.findSome? f with
  | none =>
      rw [List.findSome?_eq_none_iff] at hx
      refine (List.findSome?_eq_none_iff.mpr fun y hy => ?_).symm
      obtain ⟨x, hmem, he⟩ := hyx y hy
      rw [← he, hx x hmem]
  | some a =>
      obtain ⟨x, hmem, ha⟩ := List.exists_of_findSome?_eq_some hx
      cases hy : ys.findSome? f' with
      | none =>
          obtain ⟨y, hy', he⟩ := hxy x hmem
          rw [← he.trans (List.findSome?_eq_none_iff.mp hy y hy'), ha]
      | some b =>
          obtain ⟨y, hy', hb⟩ := List.exists_of_findSome?_eq_some hy
          obtain ⟨x', hmem', he⟩ := hyx y hy'
          rw [hone x hmem x' hmem' a b ha (he.trans hb)]

/-- The first gist with an identifier at a site: that of the first entry that has one there. -/
def leading? (table : List Impossibility) (g : PolicyGraph) (id : String) (t : Site) :
    Option Gist :=
  table.zipIdx.findSome? fun e => first? (g.gists (impossibilitiesAt t e)) id

theorem first?_impossibilityTrace (id : String) :
    first? (g.gists (g.impossibilityTrace table)) id =
      g.sites.findSome? (g.leading? table id) := by
  simp only [impossibilityTrace, gists_flatMap, first?, List.find?_flatMap]
  rfl

/-- A candidate at one site is met at another one that has a candidate about the same nodes. -/
theorem IsLegible.mem_impossibilitiesAt_of_nodes (hg : g.IsLegible) (howned : g.IsOwned)
    {t u : Site} (ht : t ∈ g.sites) (hu : u ∈ g.sites) {e e' : Impossibility × Nat}
    (he : e.1.IsFitting) (he' : e'.1.IsFitting) {c d : Candidate} (hc : c ∈ impossibilitiesAt t e)
    (hd : d ∈ impossibilitiesAt u e') (hnodes : ∀ n, n ∈ c.nodes ↔ n ∈ d.nodes) :
    c ∈ impossibilitiesAt u e := by
  obtain ⟨l, m, ⟨hl, hli⟩, ⟨hm, hmi⟩, hc⟩ := (hg.mem_impossibilitiesAt ht he).mp hc
  obtain ⟨l', m', ⟨hl', -⟩, ⟨hm', -⟩, hd⟩ := (hg.mem_impossibilitiesAt hu he').mp hd
  have hof := (hg.impossibilitiesOf_spec ht e.1 e.2 hl hm).1 c hc
  have hof' := (hg.impossibilitiesOf_spec hu e'.1 e'.2 hl' hm').1 d hd
  have hids : ∀ n, n = l.node.id ∨ n = m.node.id ↔ n = l'.node.id ∨ n = m'.node.id := fun n => by
    rw [← hof.nodes, hnodes, hof'.nodes]
  have hleft := isOn_of_mem_sites ht
  have hright := isOn_of_mem_sites hu
  obtain ⟨hlu, hmu⟩ : l ∈ u.path.literals ∧ m ∈ u.path.literals := by
    rcases Candidate.nodes_eq_of_ids hg (hleft l hl) (hleft m hm) (hright l' hl') (hright m' hm')
      hids with ⟨h1, h2⟩ | ⟨h1, h2⟩
    · exact ⟨howned.polarity t ht l hl u hu l' hl' h1 ▸ hl',
        howned.polarity t ht m hm u hu m' hm' h2 ▸ hm'⟩
    · exact ⟨howned.polarity t ht l hl u hu m' hm' h1 ▸ hm',
        howned.polarity t ht m hm u hu l' hl' h2 ▸ hl'⟩
  have hpolicy : t.policy = u.policy :=
    (howned.sites t ht l hl).symm.trans (howned.sites u hu l hlu)
  exact (hg.mem_impossibilitiesAt hu he).mpr ⟨l, m, ⟨hlu, hli⟩, ⟨hmu, hmi⟩, hpolicy ▸ hc⟩

/-- Candidates under one entry about the same nodes leave the same. -/
theorem IsLegible.mark_eq_of_impossibilitiesAt (hg : g.IsLegible) (howned : g.IsOwned)
    {t u : Site} (ht : t ∈ g.sites) (hu : u ∈ g.sites) {e : Impossibility × Nat}
    (he : e.1.IsFitting) {c d : Candidate} (hc : c ∈ impossibilitiesAt t e)
    (hd : d ∈ impossibilitiesAt u e) (hnodes : ∀ n, n ∈ c.nodes ↔ n ∈ d.nodes) :
    c.mark g = d.mark g := by
  obtain ⟨l, m, ⟨hl, -⟩, ⟨hm, -⟩, hc⟩ := (hg.mem_impossibilitiesAt ht he).mp hc
  obtain ⟨l', m', ⟨hl', -⟩, ⟨hm', -⟩, hd⟩ := (hg.mem_impossibilitiesAt hu he).mp hd
  exact ((hg.impossibilitiesOf_spec ht e.1 e.2 hl hm).1 c hc).mark_eq
    ((hg.impossibilitiesOf_spec hu e.1 e.2 hl' hm').1 d hd) hg howned ht hu hl hm hl' hm' hnodes

/-- Where identifiers tell the nodes, an identifier tells its gist at a site under an entry. -/
theorem IsLegible.isFunctional_impossibilitiesAt (hg : g.IsLegible) (howned : g.IsOwned)
    (htells : g.TellsNodes (g.impossibilityTrace table)) {t : Site} (ht : t ∈ g.sites)
    {e : Impossibility × Nat} (he : e ∈ table.zipIdx) (hfits : e.1.IsFitting) :
    IsFunctional (g.gists (impossibilitiesAt t e)) :=
  htells.isFunctional (fun _ hc => mem_impossibilityTrace.mpr ⟨t, ht, e, he, hc⟩)
    fun _ hc _ hd => hg.mark_eq_of_impossibilitiesAt howned ht ht hfits hc hd

/-- Where identifiers tell the nodes, sites with a gist of an identifier have the same first one. -/
theorem IsLegible.leading?_eq (hg : g.IsLegible) (howned : g.IsOwned)
    (htable : ∀ i ∈ table, i.IsFitting) (htells : g.TellsNodes (g.impossibilityTrace table))
    {id : String} {t u : Site} (ht : t ∈ g.sites) (hu : u ∈ g.sites) {a b : Gist}
    (ha : g.leading? table id t = some a) (hb : g.leading? table id u = some b) : a = b := by
  have hfits : ∀ e ∈ table.zipIdx, e.1.IsFitting := fun e he =>
    htable _ (List.fst_mem_of_mem_zipIdx he)
  have hfunctional : ∀ {t : Site} {e : Impossibility × Nat}, t ∈ g.sites → e ∈ table.zipIdx →
      IsFunctional (g.gists (impossibilitiesAt t e)) := fun ht he =>
    hg.isFunctional_impossibilitiesAt howned htells ht he (hfits _ he)
  -- what has the identifier at one site is met at the other one under the same entry
  have hsub : ∀ {t u : Site} {b : Gist}, t ∈ g.sites → u ∈ g.sites →
      g.leading? table id u = some b → ∀ e ∈ table.zipIdx, ∀ x,
      x ∈ g.gists (impossibilitiesAt t e) ∧ x.id = id →
        x ∈ g.gists (impossibilitiesAt u e) ∧ x.id = id := by
    rintro t u b ht hu hb e he x ⟨hx, hxid⟩
    obtain ⟨c, hc, hcx⟩ := mem_gists.mp hx
    obtain ⟨e', he', hfirst⟩ := List.exists_of_findSome?_eq_some hb
    obtain ⟨hb, hbid⟩ := (hfunctional hu he').first?_eq_some_iff.mp hfirst
    obtain ⟨d, hd, hdb⟩ := mem_gists.mp hb
    have hnodes := htells c (mem_impossibilityTrace.mpr ⟨t, ht, e, he, hc⟩) d
      (mem_impossibilityTrace.mpr ⟨u, hu, e', he', hd⟩) x b hcx hdb (hxid.trans hbid.symm)
    exact ⟨mem_gists.mpr ⟨c, hg.mem_impossibilitiesAt_of_nodes howned ht hu (hfits e he)
      (hfits e' he') hc hd hnodes, hcx⟩, hxid⟩
  have heq : g.leading? table id t = g.leading? table id u :=
    findSome?_congr fun e he => Option.ext fun x => by
      rw [(hfunctional ht he).first?_eq_some_iff, (hfunctional hu he).first?_eq_some_iff]
      exact ⟨hsub ht hu hb e he x, hsub hu ht ha e he x⟩
  rw [ha, hb] at heq
  exact Option.some.inj heq

end Firsts

section Resemblance

/-- Sites that resemble each other have the same candidates under an entry. -/
theorem mem_impossibilitiesAt_of_resembles (hg : g.IsLegible) (hh : h.IsLegible) {t u : Site}
    (ht : t ∈ g.sites) (hu : u ∈ h.sites) (htu : t.Resembles u) {e : Impossibility × Nat}
    (he : e.1.IsFitting) {c : Candidate} :
    c ∈ impossibilitiesAt t e ↔ c ∈ impossibilitiesAt u e := by
  simp only [hg.mem_impossibilitiesAt ht he, hh.mem_impossibilitiesAt hu he, htu.policy,
    htu.path.mem_literals_iff]

/-- Sites that resemble each other leave the same gists under an entry. -/
theorem mem_gists_impossibilitiesAt (hg : g.IsLegible) (hh : h.IsLegible)
    (hclauses : ∀ c, g.hasClause c = h.hasClause c) {t u : Site} (ht : t ∈ g.sites)
    (hu : u ∈ h.sites) (htu : t.Resembles u) {e : Impossibility × Nat} (he : e.1.IsFitting)
    (x : Gist) : x ∈ g.gists (impossibilitiesAt t e) ↔ x ∈ h.gists (impossibilitiesAt u e) := by
  have hcandidates := fun c => mem_impossibilitiesAt_of_resembles hg hh ht hu htu he (c := c)
  have hlone : ∀ {g : PolicyGraph} {t : Site} {c : Candidate}, g.IsLegible → t ∈ g.sites →
      c ∈ impossibilitiesAt t e → c.IsLone g .impossibility := by
    intro g t c hg ht hc
    obtain ⟨l, m, ⟨hl, -⟩, ⟨hm, -⟩, hc⟩ := (hg.mem_impossibilitiesAt ht he).mp hc
    exact ((hg.impossibilitiesOf_spec ht e.1 e.2 hl hm).1 c hc).lone
  simp only [mem_gists, ← hcandidates]
  refine exists_congr fun c => and_congr_right fun hc => ?_
  rw [(hlone hg ht hc).mark_eq (hlone hh hu ((hcandidates c).mp hc)).sound hclauses]

/-- Graphs that resemble each other leave the same gists of impossibilities. -/
theorem mem_gists_impossibilityTrace (hg : g.IsLegible) (hh : h.IsLegible) (hgh : g.Resembles h)
    (htable : ∀ i ∈ table, i.IsFitting) (x : Gist) :
    x ∈ g.gists (g.impossibilityTrace table) ↔ x ∈ h.gists (h.impossibilityTrace table) := by
  simp only [impossibilityTrace, gists_flatMap, List.mem_flatMap]
  have hfits : ∀ e ∈ table.zipIdx, e.1.IsFitting := fun e he =>
    htable _ (List.fst_mem_of_mem_zipIdx he)
  constructor
  · rintro ⟨t, ht, e, he, hx⟩
    obtain ⟨u, hu, htu⟩ := hgh.sites t ht
    exact ⟨u, hu, e, he,
      (mem_gists_impossibilitiesAt hg hh hgh.clauses ht hu htu (hfits e he) x).mp hx⟩
  · rintro ⟨u, hu, e, he, hx⟩
    obtain ⟨t, ht, htu⟩ := hgh.back u hu
    exact ⟨t, ht, e, he,
      (mem_gists_impossibilitiesAt hg hh hgh.clauses ht hu htu (hfits e he) x).mpr hx⟩

/-- The passes over impossibilities agree over graphs that resemble each other. -/
theorem passAgrees_impossibility (hg : g.IsLegible) (hh : h.IsLegible) (hgh : g.Resembles h)
    (howned : g.IsOwned) (htable : ∀ i ∈ table, i.IsFitting) {ks : List ConflictKind}
    (hk : .impossibility ∈ ks) :
    PassAgrees table (g.HasNoCollisionAmong table ks) g h .impossibility := by
  obtain ⟨pairs, found, hfound, hs⟩ := hg.exists_impossibilities_trace htable
  obtain ⟨pairs', found', hfound', hs'⟩ := hh.exists_impossibilities_trace htable
  refine hs.passAgrees hs' hfound hfound' (mem_gists_impossibilityTrace hg hh hgh htable)
    fun hids id => ?_
  have htells := hs.tellsNodes hfound hk hids
  have hresembles : ∀ t ∈ g.sites, ∀ u ∈ h.sites, t.Resembles u →
      g.leading? table id t = h.leading? table id u := fun t ht u hu htu =>
    findSome?_congr fun e he =>
      have hfits := htable _ (List.fst_mem_of_mem_zipIdx he)
      (hg.isFunctional_impossibilitiesAt howned htells ht he hfits).sameFirsts
        (mem_gists_impossibilitiesAt hg hh hgh.clauses ht hu htu hfits) id
  rw [first?_impossibilityTrace, first?_impossibilityTrace]
  refine findSome?_eq_of_same (fun t ht => ?_) (fun u hu => ?_) fun t ht u hu a b ha hb =>
    hg.leading?_eq howned htable htells ht hu ha hb
  · exact (hgh.sites t ht).imp fun u hu => ⟨hu.1, hresembles t ht u hu.1 hu.2⟩
  · exact (hgh.back u hu).imp fun t ht => ⟨ht.1, hresembles t ht.1 u hu ht.2⟩

end Resemblance

end PolicyGraph
end Eligibility
