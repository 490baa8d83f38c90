import Eligibility.Proofs.Gists
/-!
# Graphs that resemble each other

**Sites.**  What a graph says of its declared policies is read from their requirements and from
their paths.  A site is a path together with the policy it belongs to.

**Resemblance.**  Two graphs resemble each other where they have the same policies, conditions and
clauses, the same requirements in any order, and the same sites up to the order of what stands
beside a condition.  They share scopes where the same policies share a scope in both.

**Ownership.**  A graph owns its conditions where the conditions at a site belong to its policy and
each of them is to hold at all sites, or to fail at all sites.

**Results.**
* `isOn_of_mem_sites`, `isOn_of_mem_allDemands`: literals are on conditions without operands.
* `foldlM_sites`: a search through the paths of all policies is one through the sites.
* `IsLone.mark_eq`: the candidate of one policy leaves the same in both graphs.
-/

namespace Eligibility

open Conflict

/-- Whether two paths lead to the same literal beside the same literals. -/
structure Path.Resembles (p q : Path) : Prop where
  leaf : p.leaf = q.leaf
  context : ∀ l, l ∈ p.context ↔ l ∈ q.context

theorem Path.Resembles.symm {p q : Path} (h : p.Resembles q) : q.Resembles p :=
  ⟨h.leaf.symm, fun l => (h.context l).symm⟩

theorem Path.Resembles.mem_literals_iff {p q : Path} (h : p.Resembles q) (l : Literal) :
    l ∈ p.literals ↔ l ∈ q.literals := by
  rw [Path.literals, Path.literals, List.mem_cons, List.mem_cons, h.leaf, h.context]

namespace PolicyGraph

/-- A path and the policy it belongs to. -/
structure Site where
  policy : Name
  path : Path

/-- The items that a question gives; none where it has no answer. -/
def given {α : Type} : Except Fault (List α) → List α
  | .ok xs => xs
  | .error _ => []

/-- The paths of all declared policies. -/
def sites (g : PolicyGraph) : List Site :=
  (g.policyIds false).flatMap fun a => (given (g.paths a)).map (Site.mk a)

/-- The requirements of all declared policies. -/
def allDemands (g : PolicyGraph) : List Demand :=
  (g.policyIds false).flatMap fun a => given (g.demandsOf a)

/-- A graph whose conditions belong to the policies at whose sites they are, and of which each has
one truth value to take at all its sites. -/
structure IsOwned (g : PolicyGraph) : Prop where
  demands : ∀ d ∈ g.allDemands, d.literal.node.policy = d.policy
  sites : ∀ t ∈ g.sites, ∀ l ∈ t.path.literals, l.node.policy = t.policy
  polarity : ∀ t ∈ g.sites, ∀ l ∈ t.path.literals, ∀ u ∈ g.sites, ∀ m ∈ u.path.literals,
    l.node = m.node → l = m

/-- Whether two sites are of one policy and have the same literals. -/
structure Site.Resembles (t u : Site) : Prop where
  policy : t.policy = u.policy
  path : t.path.Resembles u.path

theorem Site.Resembles.symm {t u : Site} (h : t.Resembles u) : u.Resembles t :=
  ⟨h.policy.symm, h.path.symm⟩

/-- Whether two graphs say the same of policies, conditions and clauses, in any order. -/
structure Resembles (g h : PolicyGraph) : Prop where
  policies : ∀ a, g.HasPolicy a ↔ h.HasPolicy a
  leaves : ∀ n : Node, n.isLeaf = true → (n ∈ g.nodes ↔ n ∈ h.nodes)
  clauses : ∀ c, g.hasClause c = h.hasClause c
  demands : g.allDemands.Perm h.allDemands
  sites : ∀ t ∈ g.sites, ∃ u ∈ h.sites, t.Resembles u
  back : ∀ u ∈ h.sites, ∃ t ∈ g.sites, t.Resembles u

/-- Whether policies share a scope, and require each other, in both of two graphs or in none. -/
structure SharesScopes (g h : PolicyGraph) : Prop where
  scope : ∀ entities a b, g.HasPolicy a → g.HasPolicy b →
    (g.checkScope entities (.str a) (.str b) = .ok () ↔
      h.checkScope entities (.str a) (.str b) = .ok ())
  requires : ∀ a b, g.IsLinkedBy .requires a b ↔ h.IsLinkedBy .requires a b

theorem SharesScopes.refl (g : PolicyGraph) : g.SharesScopes g :=
  ⟨fun _ _ _ _ _ => Iff.rfl, fun _ _ => Iff.rfl⟩

theorem Resembles.symm {g h : PolicyGraph} (hgh : g.Resembles h) : h.Resembles g where
  policies := fun a => (hgh.policies a).symm
  leaves := fun n hn => (hgh.leaves n hn).symm
  clauses := fun c => (hgh.clauses c).symm
  demands := hgh.demands.symm
  sites := fun u hu => (hgh.back u hu).imp fun _ ht => ⟨ht.1, ht.2.symm⟩
  back := fun t ht => (hgh.sites t ht).imp fun _ hu => ⟨hu.1, hu.2.symm⟩

variable {g h : PolicyGraph} {k : ConflictKind}

section Sites

theorem mem_sites {t : Site} :
    t ∈ g.sites ↔ t.policy ∈ g.policyIds false ∧ ∃ ps, g.paths t.policy = .ok ps ∧ t.path ∈ ps := by
  obtain ⟨a, p⟩ := t
  simp only [sites, List.mem_flatMap, List.mem_map, Site.mk.injEq]
  constructor
  · rintro ⟨b, hb, q, hq, rfl, rfl⟩
    cases hps : g.paths b with
    | error f => simp [hps, given] at hq
    | ok ps => exact ⟨hb, ps, rfl, by simpa [hps, given] using hq⟩
  · rintro ⟨ha, ps, hps, hp⟩
    exact ⟨a, ha, p, by simpa [hps, given] using hp, rfl, rfl⟩

theorem mem_allDemands {d : Demand} : d ∈ g.allDemands ↔
    d.policy ∈ g.policyIds false ∧ ∃ ls, g.requirements d.policy = .ok ls ∧ d.literal ∈ ls := by
  obtain ⟨a, l⟩ := d
  simp only [allDemands, List.mem_flatMap, demandsOf]
  constructor
  · rintro ⟨b, hb, hd⟩
    cases hls : g.requirements b with
    | error f => simp [hls, given] at hd
    | ok ls =>
        simp only [hls, Attempt.map_ok, given, List.mem_map, Demand.mk.injEq] at hd
        obtain ⟨m, hm, rfl, rfl⟩ := hd
        exact ⟨hb, ls, hls, hm⟩
  · rintro ⟨ha, ls, hls, hl⟩
    exact ⟨a, ha, by simpa [hls, given] using hl⟩

/-- The literals at a site are on conditions without operands. -/
theorem isOn_of_mem_sites {t : Site} (ht : t ∈ g.sites) : ∀ l ∈ t.path.literals, l.IsOn g := by
  obtain ⟨-, ps, hps, hp⟩ := mem_sites.mp ht
  exact isOn_of_paths hps t.path hp

theorem IsLegible.isOn_of_mem_allDemands (hg : g.IsLegible) {d : Demand} (hd : d ∈ g.allDemands) :
    d.IsOn g := by
  obtain ⟨hpolicy, ls, hls, hl⟩ := mem_allDemands.mp hd
  exact ⟨isOn_of_requirements hls _ hl, hg.exists_of_mem_policyIds hpolicy⟩

/-- The policy of a site has a node. -/
theorem IsLegible.exists_policy_of_site (hg : g.IsLegible) {t : Site} (ht : t ∈ g.sites) :
    ∃ a, t.policy = .str a ∧ g.HasPolicy a :=
  hg.exists_of_mem_policyIds (mem_sites.mp ht).1

/-- A search through the paths of all declared policies is one through the sites. -/
theorem IsLegible.foldlM_sites (hg : g.IsLegible) {β : Type} (f : Name → β → Path → Except Fault β)
    (b : β) :
    ((g.policyIds false).foldlM (fun s a => g.paths a >>= fun ps => ps.foldlM (f a) s) b) =
      g.sites.foldlM (fun s t => f t.policy s t.path) b := by
  have hall := hg.paths
  unfold sites
  generalize g.policyIds false = as at hall
  induction as generalizing b with
  | nil => rfl
  | cons a as ih =>
      obtain ⟨⟨ps, hps⟩, hrest⟩ := List.forall_mem_cons.mp hall
      rw [List.foldlM_cons, List.flatMap_cons, List.foldlM_append, hps, Attempt.ok_bind, given,
        List.foldlM_map]
      exact bind_congr fun s => ih s hrest

end Sites

section Marks

/-- The gists that candidates leave. -/
def gists (g : PolicyGraph) (cs : List Candidate) : List Gist := (cs.map (·.mark g)).filterMap id

theorem mem_gists {cs : List Candidate} {x : Gist} :
    x ∈ g.gists cs ↔ ∃ c ∈ cs, c.mark g = some x := by
  simp [gists]

theorem gists_append (cs ds : List Candidate) : g.gists (cs ++ ds) = g.gists cs ++ g.gists ds := by
  simp [gists]

theorem gists_flatMap {α : Type} (xs : List α) (f : α → List Candidate) :
    g.gists (xs.flatMap f) = xs.flatMap fun x => g.gists (f x) := by
  simp only [gists, List.map_flatMap, List.filterMap_flatMap]

/-- Where a candidate leaves a gist, it has the identifier of the candidate. -/
theorem conflictId_of_mark {c : Candidate} {x : Gist} (hx : c.mark g = some x) :
    c.conflictId = .ok x.id := by
  unfold Candidate.mark at hx
  split at hx
  · next y _ hy =>
    obtain rfl := Option.some.inj hx
    exact (Candidate.of_conflict hy).2
  · cases hx

/-- Whether the identifiers of the gists that candidates leave tell their nodes. -/
def TellsNodes (g : PolicyGraph) (cs : List Candidate) : Prop :=
  ∀ c ∈ cs, ∀ d ∈ cs, ∀ x y, c.mark g = some x → d.mark g = some y → x.id = y.id →
    ∀ n, n ∈ c.nodes ↔ n ∈ d.nodes

/-- Unless identifiers collide, those of what a pass finds tell the nodes. -/
theorem tellsNodes_of_candidates {cs : List Candidate} (hcs : g.candidates table k = .ok cs)
    {ks : List ConflictKind} (hk : k ∈ ks) (hids : g.HasNoCollisionAmong table ks) :
    g.TellsNodes cs := by
  intro c hc d hd x y hcx hdy hid
  have hdid := conflictId_of_mark hdy
  rw [← hid] at hdid
  exact (hids k hk k hk c d x.id ⟨cs, hcs, hc⟩ ⟨cs, hcs, hd⟩ (conflictId_of_mark hcx) hdid).2

/-- Where identifiers tell the nodes, and candidates about the same nodes leave the same, an
identifier tells its gist. -/
theorem TellsNodes.isFunctional {cs ds : List Candidate} (h : g.TellsNodes ds) (hsub : cs ⊆ ds)
    (hmark : ∀ c ∈ cs, ∀ d ∈ cs, (∀ n, n ∈ c.nodes ↔ n ∈ d.nodes) → c.mark g = d.mark g) :
    IsFunctional (g.gists cs) := by
  intro x hx y hy hid
  obtain ⟨c, hc, hcx⟩ := mem_gists.mp hx
  obtain ⟨d, hd, hdy⟩ := mem_gists.mp hy
  have hsame := hmark c hc d hd (h c (hsub hc) d (hsub hd) x y hcx hdy hid)
  rw [hcx, hdy] at hsame
  exact Option.some.inj hsame

end Marks

end PolicyGraph

namespace Candidate

variable {g h : PolicyGraph} {k : ConflictKind} {c : Candidate}

/-- A sound candidate of two graphs with the same clauses leaves the same in both, where its
policies share their scopes in both or in none. -/
theorem IsSound.mark_eq (hc : c.IsSound g k) (hc' : c.IsSound h k)
    (hclauses : ∀ n, g.hasClause n = h.hasClause n)
    (hscope : ∀ a b : String, .str a ∈ c.policies → .str b ∈ c.policies →
      (g.checkScope c.entities (.str a) (.str b) = .ok () ↔
        h.checkScope c.entities (.str a) (.str b) = .ok ())) : c.mark g = c.mark h :=
  hc.mark_eq_mark hc' rfl (fun _ => Iff.rfl) (fun n => by rw [hclauses]) (fun _ => Iff.rfl) hscope

/-- A sound candidate of one policy. -/
structure IsLone (g : PolicyGraph) (k : ConflictKind) (c : Candidate) : Prop where
  sound : c.IsSound g k
  policy : ∃ a, c.policies = [.str a]

/-- The scope of one policy is shared. -/
theorem checkScope_self (g : PolicyGraph) (entities : Bool) (a : String) :
    g.checkScope entities (.str a) (.str a) = .ok () := by
  rw [PolicyGraph.checkScope, Json.same_str, if_pos (decide_eq_true rfl)]
  rfl

/-- A candidate of one policy leaves a gist. -/
theorem IsLone.exists_mark (hc : c.IsLone g k) : ∃ x, c.mark g = some x := by
  obtain ⟨a, ha⟩ := hc.policy
  obtain ⟨x, hx, -⟩ := hc.sound.exists_conflict
  exact ⟨x.gist, by simp [mark, hc.sound.checkScope_of_lone ha, hx]⟩

/-- What candidates of one policy each about the same nodes leave has the same identifier. -/
theorem IsLone.id_eq_of_nodes {d : Candidate} (hc : c.IsLone g k) (hd : d.IsLone g k)
    (hnodes : c.nodes = d.nodes) {x y : Gist} (hx : c.mark g = some x) (hy : d.mark g = some y) :
    x.id = y.id := by
  have hsame : c.conflictId = d.conflictId := by
    rw [conflictId, conflictId, hc.sound.kind, hd.sound.kind, hnodes]
  rw [PolicyGraph.conflictId_of_mark hx, PolicyGraph.conflictId_of_mark hy] at hsame
  exact Except.ok.inj hsame

/-- A candidate of one policy leaves the same in graphs with the same clauses. -/
theorem IsLone.mark_eq (hc : c.IsLone g k) (hc' : c.IsSound h k)
    (hclauses : ∀ n, g.hasClause n = h.hasClause n) : c.mark g = c.mark h := by
  obtain ⟨a, ha⟩ := hc.policy
  refine hc.sound.mark_eq hc' hclauses fun x y hx hy => ?_
  rw [ha, List.mem_singleton, Json.str.injEq] at hx hy
  rw [hx, hy, checkScope_self, checkScope_self]

/-- A candidate of the nodes, clauses and policies of two literals. -/
structure IsOfLiterals (c : Candidate) (l m : Literal) : Prop where
  nodes : ∀ n, n ∈ c.nodes ↔ n = l.node.id ∨ n = m.node.id
  clauses : ∀ n, n ∈ c.clauses ↔ n = l.clause ∨ n = m.clause
  policies : ∀ n, n ∈ c.policies ↔ n = l.node.policy ∨ n = m.node.policy
  entities : c.entities = true

variable {d : Candidate} {l m l' m' : Literal}

/-- Two literals and two others on the same nodes are on the same conditions. -/
theorem nodes_eq_of_ids (hg : g.IsLegible) (hl : l.IsOn g) (hm : m.IsOn g) (hl' : l'.IsOn g)
    (hm' : m'.IsOn g)
    (hids : ∀ n, n = l.node.id ∨ n = m.node.id ↔ n = l'.node.id ∨ n = m'.node.id) :
    l.node = l'.node ∧ m.node = m'.node ∨ l.node = m'.node ∧ m.node = l'.node := by
  have heq : ∀ {a b : Literal}, a.IsOn g → b.IsOn g → a.node.id = b.node.id → a.node = b.node :=
    fun ha hb => hg.eq_of_id ha.node hb.node
  have hfirst := (hids l.node.id).mp (.inl rfl)
  have hsecond := (hids m.node.id).mp (.inr rfl)
  have hfirst' := (hids l'.node.id).mpr (.inl rfl)
  have hsecond' := (hids m'.node.id).mpr (.inr rfl)
  grind

/-- Sound candidates of literals on the same nodes leave the same. -/
theorem IsOfLiterals.mark_eq (hcl : c.IsOfLiterals l m) (hdl : d.IsOfLiterals l' m')
    (hg : g.IsLegible) (hl : l.IsOn g) (hm : m.IsOn g) (hl' : l'.IsOn g) (hm' : m'.IsOn g)
    (hc : c.IsSound g k) (hd : d.IsSound h k) (hseverity : c.severity = d.severity)
    (hnodes : ∀ n, n ∈ c.nodes ↔ n ∈ d.nodes) (hclauses : ∀ n, g.hasClause n = h.hasClause n)
    (hscope : ∀ a b : String, .str a ∈ c.policies → .str b ∈ c.policies →
      (g.checkScope true (.str a) (.str b) = .ok () ↔
        h.checkScope true (.str a) (.str b) = .ok ())) : c.mark g = d.mark h := by
  have hids : ∀ n, n = l.node.id ∨ n = m.node.id ↔ n = l'.node.id ∨ n = m'.node.id := fun n => by
    rw [← hcl.nodes, hnodes, hdl.nodes]
  have hsame : ∀ (f : Node → Name) (x : Name),
      x = f l.node ∨ x = f m.node ↔ x = f l'.node ∨ x = f m'.node := by
    intro f x
    rcases nodes_eq_of_ids hg hl hm hl' hm' hids with ⟨h1, h2⟩ | ⟨h1, h2⟩
    · rw [h1, h2]
    · rw [h1, h2, or_comm]
  refine hc.mark_eq_mark hd hseverity hnodes (fun n => ?_) (fun n => ?_) ?_
  · rw [hcl.clauses, hdl.clauses, hclauses]
    exact and_congr_left fun _ => hsame Node.citedClause n
  · rw [hcl.policies, hdl.policies]
    exact hsame Node.policy n
  · rw [hcl.entities, hdl.entities]
    exact hscope

end Candidate
end Eligibility
