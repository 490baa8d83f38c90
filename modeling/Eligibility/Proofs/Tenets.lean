import Mathlib.Data.List.Flatten
import Eligibility.Proofs.Commitments
import Eligibility.Proofs.Resemblance
/-!
# What graphs say of their policies

**Tenets.**  A tenet is a declared policy with the settings it is compiled with and its top-level
rules.  What a graph says of its policies is told by its tenets: what they require, their paths and
their conditions.

**Polarity.**  The operators on the way to a comparison settle which truth value it is to have, so
that a graph whose rules have different identifiers owns its conditions.

**Order.**  What stands beside a comparison is what the other rules force, in whatever order the
rules of a policy come.

**Results.**
* `scenes_beside`: what is given from above stands in front of what stands beside a comparison.
* `exists_scene_of_perm`: rules in another order have the same scenes.
* `HasTenets.isOwned`: a graph with tenets owns its conditions.
* `HasTenets.resembles`: graphs with the same tenets resemble each other.
-/

namespace Eligibility

/-- Whether a scene is about some comparisons, beside which these and given ones stand. -/
structure Scene.IsAmong (given cs : List Commitment) (s : Scene) : Prop where
  leaf : s.leaf ∈ cs
  context : ∀ c ∈ s.context, c ∈ given ∨ c ∈ cs

theorem Scene.IsAmong.mono {given given' cs cs' : List Commitment} {s : Scene}
    (h : s.IsAmong given cs) (hsub : cs ⊆ cs') (hgiven : ∀ c ∈ given, c ∈ given' ∨ c ∈ cs') :
    s.IsAmong given' cs' where
  leaf := hsub h.leaf
  context := fun c hc => (h.context c hc).elim (hgiven c) fun hcs => .inr (hsub hcs)

/-- A scene with given commitments in front of what stands beside its comparison. -/
def Scene.beside (given : List Commitment) (s : Scene) : Scene :=
  { s with context := given ++ s.context }

namespace Rule

section Polarity

mutual

/-- The comparisons of a tree that is to take a truth value, with those they are to have. -/
def leaves (positive : Bool) : Rule → List Commitment
  | node h cs =>
      if h.operator.isLogical then leavesAll (positive != decide (h.operator = .not)) cs
      else [⟨h, positive⟩]

/-- The comparisons of several trees that are to take a truth value. -/
def leavesAll (positive : Bool) : List Rule → List Commitment
  | [] => []
  | r :: rs => leaves positive r ++ leavesAll positive rs

end

mutual

/-- The comparisons of a tree are among its rules. -/
theorem leaves_sublist (positive : Bool) : ∀ r : Rule,
    ((r.leaves positive).map Commitment.head).Sublist (r.walk.map head)
  | node h cs => by
      rw [leaves, walk, List.map_cons]
      split
      · exact (leavesAll_sublist _ cs).cons _
      · exact (List.nil_sublist _).cons_cons _

theorem leavesAll_sublist (positive : Bool) : ∀ rs : List Rule,
    ((leavesAll positive rs).map Commitment.head).Sublist ((walkAll rs).map head)
  | [] => List.Sublist.refl _
  | r :: rs => by
      rw [leavesAll, walkAll, List.map_append, List.map_append]
      exact (leaves_sublist positive r).append (leavesAll_sublist positive rs)

end

mutual

/-- What a tree forces is among its comparisons. -/
theorem mem_leaves_of_mem_forced {c : Commitment} {positive : Bool} : ∀ r : Rule,
    c ∈ r.forced positive → c ∈ r.leaves positive
  | node h cs, hc => by
      rw [forced] at hc
      rw [leaves]
      split_ifs at hc with hl hconj
      · rw [if_pos hl]
        exact mem_leavesAll_of_mem_forcedAll cs hc
      · cases hc
      · rwa [if_neg hl]

theorem mem_leavesAll_of_mem_forcedAll {c : Commitment} {positive : Bool} : ∀ rs : List Rule,
    c ∈ forcedAll positive rs → c ∈ leavesAll positive rs
  | [], hc => by cases hc
  | r :: rs, hc => List.mem_append.mpr ((List.mem_append.mp hc).imp
      (mem_leaves_of_mem_forced r) (mem_leavesAll_of_mem_forcedAll rs))

end

mutual

/-- A scene of a tree is about its comparisons, beside which given ones stand as well. -/
theorem isAmong_of_mem_scenes {s : Scene} {trail : List String} {context : List Commitment}
    {positive : Bool} : ∀ r : Rule, s ∈ r.scenes trail context positive →
      s.IsAmong context (r.leaves positive)
  | node h cs, hs => by
      rw [scenes] at hs
      rw [leaves]
      split_ifs at hs with hl hconj
      · rw [if_pos hl]
        exact (isAmong_of_mem_scenesBeside cs hs).mono (fun c hc => hc) fun c hc =>
          .inl (by simpa using hc)
      · rw [if_pos hl]
        exact isAmong_of_mem_scenesApart cs hs
      · rw [if_neg hl, List.mem_singleton.mp hs]
        exact ⟨List.mem_singleton_self _, fun c hc => .inl hc⟩

theorem isAmong_of_mem_scenesBeside {s : Scene} {trail : List String}
    {context before : List Commitment} {positive : Bool} : ∀ rs : List Rule,
      s ∈ scenesBeside trail context before positive rs →
        s.IsAmong (context ++ before) (leavesAll positive rs)
  | [], hs => by cases hs
  | r :: rs, hs => by
      rw [leavesAll]
      rcases List.mem_append.mp hs with hs | hs
      · refine (isAmong_of_mem_scenes r hs).mono (List.subset_append_left _ _) fun c hc => ?_
        rw [← List.append_assoc] at hc
        refine (List.mem_append.mp hc).imp_right fun hc => List.mem_append_right _ ?_
        exact mem_leavesAll_of_mem_forcedAll rs hc
      · refine (isAmong_of_mem_scenesBeside rs hs).mono (List.subset_append_right _ _)
          fun c hc => ?_
        rw [← List.append_assoc] at hc
        refine (List.mem_append.mp hc).imp_right fun hc => List.mem_append_left _ ?_
        exact mem_leaves_of_mem_forced r hc

theorem isAmong_of_mem_scenesApart {s : Scene} {trail : List String} {context : List Commitment}
    {positive : Bool} : ∀ rs : List Rule, s ∈ scenesApart trail context positive rs →
      s.IsAmong context (leavesAll positive rs)
  | [], hs => by cases hs
  | r :: rs, hs => by
      rw [leavesAll]
      rcases List.mem_append.mp hs with hs | hs
      · exact (isAmong_of_mem_scenes r hs).mono (List.subset_append_left _ _) fun c hc => .inl hc
      · exact (isAmong_of_mem_scenesApart rs hs).mono (List.subset_append_right _ _)
          fun c hc => .inl hc

end

end Polarity

section Order

mutual

/-- What is given from above stands in front of what stands beside a comparison. -/
theorem scenes_beside (trail : List String) (context : List Commitment) (positive : Bool) :
    ∀ r : Rule, r.scenes trail context positive =
      (r.scenes trail [] positive).map (Scene.beside context)
  | node h cs => by
      rw [scenes, scenes]
      split_ifs
      · exact scenesBeside_beside _ context [] _ cs
      · exact scenesApart_beside _ context _ cs
      · simp [Scene.beside]

theorem scenesBeside_beside (trail : List String) (context before : List Commitment)
    (positive : Bool) : ∀ rs : List Rule, scenesBeside trail context before positive rs =
      (scenesBeside trail [] before positive rs).map (Scene.beside context)
  | [] => rfl
  | r :: rs => by
      rw [scenesBeside, scenesBeside, scenes_beside _ _ _ r, scenesBeside_beside _ _ _ _ rs,
        scenes_beside _ ([] ++ _) _ r, List.map_append, List.map_map]
      simp [Function.comp_def, Scene.beside]

theorem scenesApart_beside (trail : List String) (context : List Commitment) (positive : Bool) :
    ∀ rs : List Rule, scenesApart trail context positive rs =
      (scenesApart trail [] positive rs).map (Scene.beside context)
  | [] => rfl
  | r :: rs => by
      rw [scenesApart, scenesApart, scenes_beside _ _ _ r, scenesApart_beside _ _ _ rs,
        List.map_append]

end

/-- A scene of conjoined trees is one of a tree, beside what the trees before it and behind it
force. -/
theorem mem_scenesBeside {s : Scene} {trail : List String} {context before : List Commitment}
    {positive : Bool} {rs : List Rule} : s ∈ scenesBeside trail context before positive rs ↔
      ∃ xs r ys, rs = xs ++ r :: ys ∧ s ∈ r.scenes trail
        (context ++ (before ++ forcedAll positive xs ++ forcedAll positive ys)) positive := by
  induction rs generalizing before with
  | nil => simp [scenesBeside]
  | cons t ts ih =>
      rw [scenesBeside, List.mem_append, ih]
      constructor
      · rintro (hs | ⟨xs, r, ys, rfl, hs⟩)
        · exact ⟨[], t, ts, rfl, by simpa [forcedAll] using hs⟩
        · exact ⟨t :: xs, r, ys, rfl, by simpa [forcedAll] using hs⟩
      · rintro ⟨xs, r, ys, heq, hs⟩
        cases xs with
        | nil =>
            obtain ⟨rfl, rfl⟩ := List.cons_eq_cons.mp heq
            exact .inl (by simpa [forcedAll] using hs)
        | cons x xs =>
            obtain ⟨rfl, rfl⟩ := List.cons_eq_cons.mp heq
            exact .inr ⟨xs, r, ys, rfl, by simpa [forcedAll] using hs⟩

theorem forcedAll_perm {positive : Bool} {rs ts : List Rule} (h : rs.Perm ts) :
    (forcedAll positive rs).Perm (forcedAll positive ts) := by
  rw [forcedAll_eq_flatMap, forcedAll_eq_flatMap]
  exact h.flatMap_right _

/-- Conjoined rules in another order have the same scenes, up to the order of what stands beside a
comparison. -/
theorem exists_scene_of_perm {s : Scene} {trail : List String} {positive : Bool}
    {rs ts : List Rule} (h : rs.Perm ts) (hs : s ∈ scenesBeside trail [] [] positive rs) :
    ∃ s' ∈ scenesBeside trail [] [] positive ts, s.leaf = s'.leaf ∧
      ∀ c, c ∈ s.context ↔ c ∈ s'.context := by
  obtain ⟨xs, r, ys, rfl, hscene⟩ := mem_scenesBeside.mp hs
  obtain ⟨xs', ys', rfl⟩ := List.append_of_mem (h.mem_iff.mp (List.mem_append_right xs
    List.mem_cons_self))
  have hrest : (xs ++ ys).Perm (xs' ++ ys') :=
    (List.perm_middle.symm.trans (h.trans List.perm_middle)).cons_inv
  have hforced : (forcedAll positive (xs ++ ys)).Perm (forcedAll positive (xs' ++ ys')) :=
    forcedAll_perm hrest
  rw [scenes_beside] at hscene
  obtain ⟨s, hs', rfl⟩ := List.mem_map.mp hscene
  refine ⟨s.beside ([] ++ ([] ++ forcedAll positive xs' ++ forcedAll positive ys')), ?_, rfl,
    fun c => ?_⟩
  · refine mem_scenesBeside.mpr ⟨xs', r, ys', rfl, ?_⟩
    rw [scenes_beside]
    exact List.mem_map_of_mem hs'
  · have hc := hforced.mem_iff (a := c)
    simp only [forcedAll_eq_flatMap, List.flatMap_append, List.mem_append] at hc
    simp only [Scene.beside, forcedAll_eq_flatMap, List.nil_append, List.mem_append, hc]

end Order

end Rule

open PolicyGraph

/-- A declared policy with the settings it is compiled with and its top-level rules. -/
structure Tenet where
  settings : Settings
  policy : String
  roots : List Rule

namespace Tenet

/-- The literal of a commitment of a tenet. -/
def literal (t : Tenet) (c : Commitment) : Literal := c.literal t.settings t.policy

/-- What the policy of a tenet requires. -/
def demands (t : Tenet) : List Demand :=
  (Rule.forcedAll true t.roots).map fun c => ⟨.str t.policy, t.literal c⟩

/-- The sites of the policy of a tenet. -/
def sites (t : Tenet) : List Site :=
  (Rule.scenesBeside [] [] [] true t.roots).map fun s =>
    ⟨.str t.policy, s.path t.settings t.policy⟩

/-- The literals on the conditions of a tenet. -/
def literals (t : Tenet) : List Literal := (Rule.leavesAll true t.roots).map t.literal

/-- Whether a node is a condition of a tenet that has no operands. -/
def HasCondition (t : Tenet) (n : Node) : Prop :=
  ∃ r ∈ Rule.walkAll t.roots, r.head.operator.isLogical = false ∧
    n = Plan.conditionNode t.settings t.policy r.head

/-- Whether two tenets are of one policy and have the same rules in any order. -/
structure Agrees (t u : Tenet) : Prop where
  settings : t.settings = u.settings
  policy : t.policy = u.policy
  roots : t.roots.Perm u.roots

theorem Agrees.symm {t u : Tenet} (h : t.Agrees u) : u.Agrees t :=
  ⟨h.settings.symm, h.policy.symm, h.roots.symm⟩

variable {t u : Tenet}

theorem Agrees.demands_perm (h : t.Agrees u) : t.demands.Perm u.demands := by
  obtain ⟨settings, policy, roots⟩ := t
  obtain ⟨settings', policy', roots'⟩ := u
  obtain ⟨rfl, rfl, hroots⟩ := h
  exact (Rule.forcedAll_perm hroots).map _

/-- Tenets that agree have the same sites up to the order of what stands beside a condition. -/
theorem Agrees.exists_site (h : t.Agrees u) {x : Site} (hx : x ∈ t.sites) :
    ∃ y ∈ u.sites, x.Resembles y := by
  obtain ⟨settings, policy, roots⟩ := t
  obtain ⟨settings', policy', roots'⟩ := u
  obtain ⟨rfl, rfl, hroots⟩ := h
  obtain ⟨s, hs, rfl⟩ := List.mem_map.mp hx
  obtain ⟨s', hs', hleaf, hcontext⟩ := Rule.exists_scene_of_perm hroots hs
  refine ⟨_, List.mem_map_of_mem hs', rfl, ?_, fun l => ?_⟩
  · exact congrArg (Commitment.literal settings policy) hleaf
  · simp only [Scene.path, List.mem_map, hcontext]

theorem Agrees.hasCondition (h : t.Agrees u) {n : Node} (hn : t.HasCondition n) :
    u.HasCondition n := by
  obtain ⟨settings, policy, roots⟩ := t
  obtain ⟨settings', policy', roots'⟩ := u
  obtain ⟨rfl, rfl, hroots⟩ := h
  obtain ⟨r, hr, hn⟩ := hn
  obtain ⟨root, hroot, hr⟩ := Rule.mem_walkAll.mp hr
  exact ⟨r, Rule.mem_walkAll.mpr ⟨root, hroots.mem_iff.mp hroot, hr⟩, hn⟩

/-- The literals of a site are on the conditions of its tenet. -/
theorem mem_literals {x : Site} (hx : x ∈ t.sites) {l : Literal} (hl : l ∈ x.path.literals) :
    l ∈ t.literals := by
  obtain ⟨s, hs, rfl⟩ := List.mem_map.mp hx
  have hamong := Rule.isAmong_of_mem_scenesBeside _ hs
  rcases List.mem_cons.mp hl with rfl | hl
  · exact List.mem_map_of_mem hamong.leaf
  · obtain ⟨c, hc, rfl⟩ := List.mem_map.mp hl
    exact List.mem_map_of_mem ((hamong.context c hc).resolve_left (by simp))

/-- The literals of tenets whose rules have different identifiers are on different nodes. -/
theorem nodup_literals {ts : List Tenet}
    (hids : ((ts.flatMap fun t => Rule.walkAll t.roots).map Rule.id).Nodup) :
    ((ts.flatMap literals).map fun l => l.node.id).Nodup := by
  have hheads : (ts.flatMap fun t => (Rule.leavesAll true t.roots).map Commitment.head).Sublist
      ((ts.flatMap fun t => Rule.walkAll t.roots).map Rule.head) := by
    rw [List.map_flatMap]
    exact List.Sublist.flatMap_right _ fun t _ => Rule.leavesAll_sublist true t.roots
  have hnodup : ((ts.flatMap fun t => (Rule.leavesAll true t.roots).map Commitment.head).map
      Head.id).Nodup := by
    refine List.Nodup.sublist (hheads.map Head.id) ?_
    rw [List.map_map]
    exact hids
  have hkeys := hnodup.map (f := fun k => Json.str (Node.conditionKey k)) fun a b hab =>
    Node.conditionKey_inj.mp (Json.str.inj hab)
  rw [List.map_map, List.map_flatMap] at hkeys
  rw [List.map_flatMap]
  simp only [List.map_map, literals] at hkeys ⊢
  exact hkeys

end Tenet

namespace PolicyGraph

variable {g h : PolicyGraph} {ts us : List Tenet}

/-- A graph that says of its policies what tenets do, and nothing of those without a tenet. -/
structure HasTenets (g : PolicyGraph) (ts : List Tenet) : Prop where
  policies : ∀ t ∈ ts, .str t.policy ∈ g.policyIds false
  distinct : (g.policyIds false).Nodup ∧ (ts.map Tenet.policy).Nodup
  silent : ∀ a ∈ g.policyIds false, (∃ t ∈ ts, a = .str t.policy) ∨
    g.requirements a = .ok [] ∧ g.paths a = .ok []
  requirements : ∀ t ∈ ts, g.requirements (.str t.policy) =
    .ok ((Rule.forcedAll true t.roots).map t.literal)
  paths : ∀ t ∈ ts, g.paths (.str t.policy) =
    .ok ((Rule.scenesBeside [] [] [] true t.roots).map (Scene.path t.settings t.policy))
  leaves : ∀ n : Node, n.isLeaf = true → (n ∈ g.nodes ↔ ∃ t ∈ ts, t.HasCondition n)
  ids : ((ts.flatMap fun t => Rule.walkAll t.roots).map Rule.id).Nodup

section Tenets

/-- What is read of all policies is read of those with a tenet. -/
theorem HasTenets.flatMap_perm (hg : g.HasTenets ts) {α : Type} {f : Name → List α}
    (hf : ∀ a ∈ g.policyIds false, g.requirements a = .ok [] ∧ g.paths a = .ok [] → f a = []) :
    ((g.policyIds false).flatMap f).Perm (ts.flatMap fun t => f (.str t.policy)) := by
  obtain ⟨hnodup, hdistinct⟩ := hg.distinct
  have hnames : (ts.map fun t => Json.str t.policy).Nodup := by
    have hkeys := hdistinct.map (f := Json.str) fun a b hab => Json.str.inj hab
    rwa [List.map_map] at hkeys
  have hsub : (ts.map fun t => Json.str t.policy) ⊆ g.policyIds false := by
    intro a ha
    obtain ⟨t, ht, rfl⟩ := List.mem_map.mp ha
    exact hg.policies t ht
  obtain ⟨named, hnamed, hsublist⟩ := List.subperm_of_subset hnames hsub
  obtain ⟨rest, hrest⟩ := hsublist.exists_perm_append
  have hapart := List.disjoint_of_nodup_append (hrest.nodup_iff.mp hnodup)
  have hnone : rest.flatMap f = [] := by
    refine List.flatMap_eq_nil_iff.mpr fun a ha => ?_
    have hpolicy := hrest.mem_iff.mpr (List.mem_append_right _ ha)
    rcases hg.silent a hpolicy with ⟨t, ht, rfl⟩ | hsilent
    · exact absurd ha (hapart (hnamed.mem_iff.mpr (List.mem_map_of_mem ht)))
    · exact hf a hpolicy hsilent
  have hall := hrest.flatMap_right f
  rw [List.flatMap_append, hnone, List.append_nil] at hall
  refine hall.trans ((hnamed.flatMap_right f).trans (List.Perm.of_eq ?_))
  rw [List.flatMap_map]

theorem HasTenets.allDemands_perm (hg : g.HasTenets ts) :
    g.allDemands.Perm (ts.flatMap Tenet.demands) := by
  refine (hg.flatMap_perm fun a _ ha => ?_).trans (List.Perm.of_eq ?_)
  · rw [demandsOf, ha.1, Attempt.map_ok]
    rfl
  · refine List.flatMap_congr fun t ht => ?_
    rw [demandsOf, hg.requirements t ht, Attempt.map_ok, given, List.map_map]
    rfl

theorem HasTenets.sites_perm (hg : g.HasTenets ts) : g.sites.Perm (ts.flatMap Tenet.sites) := by
  refine (hg.flatMap_perm fun a _ ha => ?_).trans (List.Perm.of_eq ?_)
  · rw [ha.2]
    rfl
  · refine List.flatMap_congr fun t ht => ?_
    rw [hg.paths t ht, given, List.map_map]
    rfl

/-- A graph with tenets owns its conditions. -/
theorem HasTenets.isOwned (hg : g.HasTenets ts) : g.IsOwned := by
  have hids := Tenet.nodup_literals hg.ids
  refine ⟨fun d hd => ?_, fun x hx l hl => ?_, fun x hx l hl y hy m hm hnode => ?_⟩
  · obtain ⟨t, -, hd⟩ := List.mem_flatMap.mp (hg.allDemands_perm.mem_iff.mp hd)
    obtain ⟨c, -, rfl⟩ := List.mem_map.mp hd
    exact Plan.conditionNode_policy _ _ _
  · obtain ⟨t, -, hx⟩ := List.mem_flatMap.mp (hg.sites_perm.mem_iff.mp hx)
    obtain ⟨c, -, rfl⟩ := List.mem_map.mp (Tenet.mem_literals hx hl)
    obtain ⟨s, -, rfl⟩ := List.mem_map.mp hx
    exact Plan.conditionNode_policy _ _ _
  · obtain ⟨t, ht, hx⟩ := List.mem_flatMap.mp (hg.sites_perm.mem_iff.mp hx)
    obtain ⟨u, hu, hy⟩ := List.mem_flatMap.mp (hg.sites_perm.mem_iff.mp hy)
    exact List.inj_on_of_nodup_map hids
      (List.mem_flatMap.mpr ⟨t, ht, Tenet.mem_literals hx hl⟩)
      (List.mem_flatMap.mpr ⟨u, hu, Tenet.mem_literals hy hm⟩) (congrArg Node.id hnode)

/-- Graphs whose tenets agree resemble each other, if they have the same policies and clauses. -/
theorem HasTenets.resembles {vs : List Tenet} (hg : g.HasTenets ts) (hh : h.HasTenets us)
    (hperm : us.Perm vs) (hall : List.Forall₂ Tenet.Agrees ts vs)
    (hpolicies : ∀ a, g.HasPolicy a ↔ h.HasPolicy a)
    (hclauses : ∀ c, g.hasClause c = h.hasClause c) : g.Resembles h := by
  have hforth : ∀ t ∈ ts, ∃ u ∈ us, t.Agrees u := fun t ht =>
    (Attempt.exists_right hall ht).imp fun u hu => ⟨hperm.mem_iff.mpr hu.1, hu.2⟩
  have hback : ∀ u ∈ us, ∃ t ∈ ts, t.Agrees u := fun u hu =>
    Attempt.exists_left hall (hperm.mem_iff.mp hu)
  refine ⟨hpolicies, fun n hn => ?_, hclauses, ?_, fun x hx => ?_, fun y hy => ?_⟩
  · rw [hg.leaves n hn, hh.leaves n hn]
    constructor
    · rintro ⟨t, ht, hof⟩
      obtain ⟨u, hu, htu⟩ := hforth t ht
      exact ⟨u, hu, htu.hasCondition hof⟩
    · rintro ⟨u, hu, hof⟩
      obtain ⟨t, ht, htu⟩ := hback u hu
      exact ⟨t, ht, htu.symm.hasCondition hof⟩
  · refine hg.allDemands_perm.trans (List.Perm.trans ?_
      ((hperm.symm.flatMap_right _).trans hh.allDemands_perm.symm))
    clear hg hh hperm hforth hback
    induction hall with
    | nil => exact .refl _
    | cons htv _ ih =>
        rw [List.flatMap_cons, List.flatMap_cons]
        exact htv.demands_perm.append ih
  · obtain ⟨t, ht, hx⟩ := List.mem_flatMap.mp (hg.sites_perm.mem_iff.mp hx)
    obtain ⟨u, hu, htu⟩ := hforth t ht
    obtain ⟨y, hy, hxy⟩ := htu.exists_site hx
    exact ⟨y, hh.sites_perm.mem_iff.mpr (List.mem_flatMap.mpr ⟨u, hu, hy⟩), hxy⟩
  · obtain ⟨u, hu, hy⟩ := List.mem_flatMap.mp (hh.sites_perm.mem_iff.mp hy)
    obtain ⟨t, ht, htu⟩ := hback u hu
    obtain ⟨x, hx, hyx⟩ := htu.symm.exists_site hy
    exact ⟨x, hg.sites_perm.mem_iff.mpr (List.mem_flatMap.mpr ⟨t, ht, hx⟩), hyx.symm⟩

end Tenets

end PolicyGraph

namespace Plan

variable {cfg : Settings} {p : Plan}

/-- The tenets of a plan: its documents that have rules. -/
def tenets (cfg : Settings) (p : Plan) : List Tenet :=
  (p.documents.filter fun d => !(p.rootsOf d.policy).isEmpty).map fun d =>
    ⟨cfg, d.policy, p.rootsOf d.policy⟩

theorem mem_tenets {t : Tenet} : t ∈ p.tenets cfg ↔
    ∃ d ∈ p.documents, p.rootsOf d.policy ≠ [] ∧ t = ⟨cfg, d.policy, p.rootsOf d.policy⟩ := by
  simp only [tenets, List.mem_map, List.mem_filter, Bool.not_eq_true', List.isEmpty_eq_false_iff]
  constructor
  · rintro ⟨d, ⟨hd, hroots⟩, rfl⟩
    exact ⟨d, hd, hroots, rfl⟩
  · rintro ⟨d, hd, hroots, rfl⟩
    exact ⟨d, ⟨hd, hroots⟩, rfl⟩

/-- The rules of the tenets of a plan are those that it places. -/
theorem walkAll_tenets_sublist (cfg : Settings) (p : Plan) :
    ((p.tenets cfg).flatMap fun t => Rule.walkAll t.roots).Sublist (p.placed.map Prod.snd) := by
  have hplaced : p.placed.map Prod.snd =
      p.documents.flatMap fun d => Rule.walkAll (p.rootsOf d.policy) := by
    rw [placed, List.map_flatMap]
    simp only [List.map_map, Function.comp_def, List.map_id']
  rw [hplaced, tenets, List.flatMap_map]
  exact List.filter_sublist.flatMap _

/-- The tenets of a plan are of different policies. -/
theorem nodup_policies_tenets (hp : p.IsSound) :
    ((p.tenets cfg).map Tenet.policy).Nodup := by
  rw [tenets, List.map_map]
  exact hp.policies.sublist (List.filter_sublist.map Document.policy)

/-- A condition of a plan is one of a tenet. -/
theorem exists_hasCondition_iff {n : Node} : (∃ t ∈ p.tenets cfg, t.HasCondition n) ↔
    ∃ x ∈ p.placed, x.2.head.operator.isLogical = false ∧ n = conditionNode cfg x.1 x.2.head := by
  constructor
  · rintro ⟨t, ht, r, hr, hcomparison, rfl⟩
    obtain ⟨d, hd, -, rfl⟩ := mem_tenets.mp ht
    obtain ⟨root, hroot, hr⟩ := Rule.mem_walkAll.mp hr
    exact ⟨(d.policy, r), mem_placed.mpr ⟨d, hd, rfl, root, hroot, hr⟩, hcomparison, rfl⟩
  · rintro ⟨⟨policy, r⟩, hx, hcomparison, rfl⟩
    obtain ⟨d, hd, rfl, root, hroot, hr⟩ := mem_placed.mp hx
    refine ⟨_, mem_tenets.mpr ⟨d, hd, List.ne_nil_of_mem hroot, rfl⟩, r,
      Rule.mem_walkAll.mpr ⟨root, hroot, hr⟩, hcomparison, rfl⟩

end Plan

namespace PolicyGraph

variable {cfg : Settings} {g : PolicyGraph} {p : Plan}

section Plans

/-- A graph that has the trees of several plans, whose policies are the documents of these and whose
conditions are those that they place, has their tenets. -/
theorem IsLegible.hasTenets (hg : g.IsLegible) {parts : List (Settings × Plan)}
    (htrees : ∀ q ∈ parts, g.HasTreesOf q.1 q.2)
    (hpolicies : ∀ n, n ∈ g.policyIds false ↔
      ∃ q ∈ parts, ∃ d ∈ q.2.documents, n = .str d.policy)
    (hleaves : ∀ n : Node, n.isLeaf = true → (n ∈ g.nodes ↔ ∃ q ∈ parts, ∃ x ∈ q.2.placed,
      x.2.head.operator.isLogical = false ∧ n = Plan.conditionNode q.1 x.1 x.2.head))
    (hids : ((parts.flatMap fun q => q.2.placed).map fun x => x.2.id).Nodup)
    (hdistinct : ((parts.flatMap fun q => q.2.tenets q.1).map Tenet.policy).Nodup) :
    g.HasTenets (parts.flatMap fun q => q.2.tenets q.1) := by
  have hof : ∀ t ∈ parts.flatMap fun q => q.2.tenets q.1, ∃ q ∈ parts, ∃ d ∈ q.2.documents,
      t = ⟨q.1, d.policy, q.2.rootsOf d.policy⟩ := by
    intro t ht
    obtain ⟨q, hq, ht⟩ := List.mem_flatMap.mp ht
    obtain ⟨d, hd, -, rfl⟩ := Plan.mem_tenets.mp ht
    exact ⟨q, hq, d, hd, rfl⟩
  refine ⟨fun t ht => ?_, ⟨hg.nodup_policyIds false, hdistinct⟩, fun a ha => ?_, fun t ht => ?_,
    fun t ht => ?_, fun n hn => ?_, ?_⟩
  · obtain ⟨q, hq, d, hd, rfl⟩ := hof t ht
    exact (hpolicies _).mpr ⟨q, hq, d, hd, rfl⟩
  · obtain ⟨q, hq, d, hd, rfl⟩ := (hpolicies a).mp ha
    by_cases hroots : q.2.rootsOf d.policy = []
    · right
      rw [(htrees q hq).requirements_eq hd, (htrees q hq).paths_eq hd, Plan.forcedOf,
        Plan.scenesOf, hroots]
      exact ⟨rfl, rfl⟩
    · exact .inl ⟨_, List.mem_flatMap.mpr ⟨q, hq, Plan.mem_tenets.mpr ⟨d, hd, hroots, rfl⟩⟩, rfl⟩
  · obtain ⟨q, hq, d, hd, rfl⟩ := hof t ht
    exact (htrees q hq).requirements_eq hd
  · obtain ⟨q, hq, d, hd, rfl⟩ := hof t ht
    exact (htrees q hq).paths_eq hd
  · rw [hleaves n hn]
    constructor
    · rintro ⟨q, hq, hx⟩
      obtain ⟨t, ht, hcondition⟩ := Plan.exists_hasCondition_iff.mpr hx
      exact ⟨t, List.mem_flatMap.mpr ⟨q, hq, ht⟩, hcondition⟩
    · rintro ⟨t, ht, hcondition⟩
      obtain ⟨q, hq, ht⟩ := List.mem_flatMap.mp ht
      exact ⟨q, hq, Plan.exists_hasCondition_iff.mp ⟨t, ht, hcondition⟩⟩
  · have hsub : ((parts.flatMap fun q => q.2.tenets q.1).flatMap fun t =>
        Rule.walkAll t.roots).Sublist ((parts.flatMap fun q => q.2.placed).map Prod.snd) := by
      rw [List.flatMap_assoc, List.map_flatMap]
      exact List.Sublist.flatMap_right _ fun q _ => Plan.walkAll_tenets_sublist q.1 q.2
    refine List.Nodup.sublist (hsub.map Rule.id) ?_
    rw [List.map_map]
    exact hids

/-- The declared policies of a compiled graph are the documents of its plan. -/
theorem IsDrawnFrom.mem_policyIds (h : g.IsDrawnFrom cfg p) {n : Name} :
    n ∈ g.policyIds false ↔ ∃ d ∈ p.documents, n = .str d.policy := by
  refine ⟨h.exists_of_mem_policyIds, ?_⟩
  rintro ⟨d, hd, rfl⟩
  refine List.mem_map.mpr ⟨Plan.policyNode cfg d (p.rootsOf d.policy), ?_, by simp⟩
  have hnode := (node?_spec (h.node?_policy hd)).1
  have hkind : (Plan.policyNode cfg d (p.rootsOf d.policy)).kind = .policy := rfl
  simpa [policies, nodesOfKind, hnode] using hkind

/-- The conditions without operands of a compiled graph are the comparisons of its plan. -/
theorem IsDrawnFrom.mem_leaves (h : g.IsDrawnFrom cfg p) {n : Node} (hn : n.isLeaf = true) :
    n ∈ g.nodes ↔ ∃ x ∈ p.placed, x.2.head.operator.isLogical = false ∧
      n = Plan.conditionNode cfg x.1 x.2.head := by
  constructor
  · exact fun hmem => h.eq_of_isLeaf hmem hn
  · rintro ⟨x, hx, -, rfl⟩
    exact (node?_spec (h.node?_condition hx)).1

/-- A compiled graph has the tenets of its plan. -/
theorem IsDrawnFrom.hasTenets (h : g.IsDrawnFrom cfg p) : g.HasTenets (p.tenets cfg) := by
  have htrees : ∀ q ∈ [(cfg, p)], g.HasTreesOf q.1 q.2 := by simpa using h.hasTreesOf
  have hall := h.isLegible.hasTenets htrees (fun n => by simpa using h.mem_policyIds)
    (fun n hn => by simpa using h.mem_leaves hn) (by simpa using h.sound.ids)
    (by simpa using Plan.nodup_policies_tenets h.sound)
  simpa using hall

end Plans

end PolicyGraph
end Eligibility
