import Eligibility.Proofs.Literals
/-!
# What the trees of a policy force

**Commitments.**  A comparison with the truth value it is to have.  A tree that is to
take a truth value forces commitments on its comparisons, as far as every operator on
the way passes its demand on to all its operands.

**Scenes.**  A comparison of a policy, what stands beside it and the rules on the way to
it, read off the trees alone.

**Graphs.**  What a graph tells of a policy only depends on the trees below its nodes, so that it
is the same in every graph that has these trees.

**Results.**
* `mustHold_eq`, `requirements_eq`: what nodes need is what the trees below them force.
* `paths_eq`: the paths of a policy are the scenes of its trees.
* `isPlaced_of_mem_scenesOf`: beside a comparison of a policy stand other ones of it.
-/

namespace Eligibility

/-- A comparison and the truth value it is to have. -/
structure Commitment where
  head : Head
  positive : Bool

/-- A comparison of a tree with the commitments beside it and the rules on the way. -/
structure Scene where
  leaf : Commitment
  context : List Commitment
  trail : List String

/-- Whether a commitment is about a comparison among some rules. -/
def Commitment.IsOf (ts : List Rule) (c : Commitment) : Prop :=
  ∃ t ∈ ts, t.head = c.head ∧ t.head.operator.isLogical = false

theorem Commitment.IsOf.mono {ts us : List Rule} {c : Commitment} (h : c.IsOf ts) (hsub : ts ⊆ us) :
    c.IsOf us :=
  h.imp fun _ ht => ⟨hsub ht.1, ht.2⟩

theorem Commitment.IsOf.id_mem {ts : List Rule} {c : Commitment} (h : c.IsOf ts) :
    c.head.id ∈ ts.map Rule.id := by
  obtain ⟨t, ht, he, -⟩ := h
  exact List.mem_map.mpr ⟨t, ht, congrArg Head.id he⟩

/-- Whether a scene is about a comparison among some rules, beside which other ones of these rules
and given ones stand. -/
structure Scene.IsOf (given : List Commitment) (ts : List Rule) (s : Scene) : Prop where
  leaf : s.leaf.IsOf ts
  context : ∀ c ∈ s.context, c ∈ given ∨ c.IsOf ts
  apart : ∀ c ∈ s.context, c.head.id ≠ s.leaf.head.id

theorem Scene.IsOf.mono {given all : List Commitment} {ts us : List Rule} {s : Scene}
    (h : s.IsOf given ts) (hsub : ts ⊆ us) (hgiven : ∀ c ∈ given, c ∈ all ∨ c.IsOf us) :
    s.IsOf all us where
  leaf := h.leaf.mono hsub
  context := fun c hc => (h.context c hc).elim (hgiven c) fun hts => .inr (hts.mono hsub)
  apart := h.apart

namespace Rule
open PolicyGraph (isConjunctive)

section Forcing

mutual

/-- The commitments that a tree forces when it takes a truth value. -/
def forced (positive : Bool) : Rule → List Commitment
  | node h cs =>
      if h.operator.isLogical then
        if isConjunctive (some h.operator) positive then
          forcedAll (positive != decide (h.operator = .not)) cs
        else []
      else [⟨h, positive⟩]

/-- The commitments that several trees force when they all take a truth value. -/
def forcedAll (positive : Bool) : List Rule → List Commitment
  | [] => []
  | r :: rs => forced positive r ++ forcedAll positive rs

end

theorem forced_eq (positive : Bool) (r : Rule) :
    r.forced positive =
      if r.head.operator.isLogical then
        if isConjunctive (some r.head.operator) positive then
          forcedAll (positive != decide (r.head.operator = .not)) r.children
        else []
      else [⟨r.head, positive⟩] := by
  cases r
  rw [forced]
  rfl

theorem forcedAll_eq_flatMap (positive : Bool) (rs : List Rule) :
    forcedAll positive rs = rs.flatMap (forced positive) := by
  induction rs with
  | nil => rfl
  | cons r rs ih => rw [forcedAll, ih, List.flatMap_cons]

end Forcing

section Scenes

mutual

/-- The scenes of a tree that is to take a truth value, below a trail and beside a context. -/
def scenes (trail : List String) (context : List Commitment) (positive : Bool) :
    Rule → List Scene
  | node h cs =>
      if h.operator.isLogical then
        if isConjunctive (some h.operator) positive then
          scenesBeside (trail ++ [h.id]) context [] (positive != decide (h.operator = .not)) cs
        else scenesApart (trail ++ [h.id]) context (positive != decide (h.operator = .not)) cs
      else [⟨⟨h, positive⟩, context, trail ++ [h.id]⟩]

/-- The scenes of conjoined trees, each beside what the trees before it and behind it force. -/
def scenesBeside (trail : List String) (context before : List Commitment) (positive : Bool) :
    List Rule → List Scene
  | [] => []
  | r :: rs =>
      scenes trail (context ++ (before ++ forcedAll positive rs)) positive r ++
        scenesBeside trail context (before ++ forced positive r) positive rs

/-- The scenes of trees that are not conjoined. -/
def scenesApart (trail : List String) (context : List Commitment) (positive : Bool) :
    List Rule → List Scene
  | [] => []
  | r :: rs => scenes trail context positive r ++ scenesApart trail context positive rs

end

theorem scenes_eq (trail : List String) (context : List Commitment) (positive : Bool) (r : Rule) :
    r.scenes trail context positive =
      if r.head.operator.isLogical then
        if isConjunctive (some r.head.operator) positive then
          scenesBeside (trail ++ [r.id]) context [] (positive != decide (r.head.operator = .not))
            r.children
        else
          scenesApart (trail ++ [r.id]) context (positive != decide (r.head.operator = .not))
            r.children
      else [⟨⟨r.head, positive⟩, context, trail ++ [r.id]⟩] := by
  cases r
  rw [scenes]
  rfl

theorem scenesApart_eq_flatMap (trail : List String) (context : List Commitment) (positive : Bool)
    (rs : List Rule) :
    scenesApart trail context positive rs = rs.flatMap (scenes trail context positive) := by
  induction rs with
  | nil => rfl
  | cons r rs ih => rw [scenesApart, ih, List.flatMap_cons]

theorem scenesBeside_append (trail : List String) (context : List Commitment)
    (before : List (List Commitment)) (positive : Bool) (rs : List Rule) :
    scenesBeside trail context before.flatten positive rs =
      (rs.zipIdx before.length).flatMap fun x => scenes trail
        (context ++ ((before ++ rs.map (forced positive)).eraseIdx x.2).flatten) positive x.1 := by
  induction rs generalizing before with
  | nil => rfl
  | cons r rs ih =>
      have hrest := ih (before ++ [forced positive r])
      rw [List.flatten_append, List.flatten_singleton, List.length_append, List.length_singleton,
        List.append_assoc] at hrest
      rw [scenesBeside, hrest, List.zipIdx_cons, List.flatMap_cons, List.map_cons,
        List.eraseIdx_append_of_length_le (Nat.le_refl _), Nat.sub_self, List.eraseIdx_cons_zero,
        List.flatten_append, forcedAll_eq_flatMap, List.flatMap]
      rfl

/-- The scenes of conjoined trees, each beside what all the other ones force. -/
theorem scenesBeside_eq_flatMap (trail : List String) (context : List Commitment) (positive : Bool)
    (rs : List Rule) :
    scenesBeside trail context [] positive rs = rs.zipIdx.flatMap fun x => scenes trail
      (context ++ ((rs.map (forced positive)).eraseIdx x.2).flatten) positive x.1 :=
  scenesBeside_append trail context [] positive rs

end Scenes

section Origin

mutual

/-- What a tree forces is about its comparisons. -/
theorem isOf_of_mem_forced {c : Commitment} {positive : Bool} :
    ∀ r : Rule, c ∈ r.forced positive → c.IsOf r.walk
  | node h cs, hc => by
      rw [forced] at hc
      split_ifs at hc with hl hconj
      · exact (isOf_of_mem_forcedAll cs hc).mono (by simp [walk])
      · simp at hc
      · rw [List.mem_singleton.mp hc]
        exact ⟨node h cs, mem_walk_self _, rfl, by simpa using hl⟩

theorem isOf_of_mem_forcedAll {c : Commitment} {positive : Bool} :
    ∀ rs : List Rule, c ∈ forcedAll positive rs → c.IsOf (walkAll rs)
  | [], hc => by simp [forcedAll] at hc
  | r :: rs, hc => by
      rcases List.mem_append.mp hc with hc | hc
      · exact (isOf_of_mem_forced r hc).mono (by simp [walkAll])
      · exact (isOf_of_mem_forcedAll rs hc).mono (by simp [walkAll])

end

mutual

/-- The comparison of a scene stands in the tree, and beside it stand other ones. -/
theorem isOf_of_mem_scenes {s : Scene} {trail : List String} {context : List Commitment}
    {positive : Bool} : ∀ r : Rule, s ∈ r.scenes trail context positive →
      (r.walk.map Rule.id).Nodup → (∀ c ∈ context, c.head.id ∉ r.walk.map Rule.id) →
      s.IsOf context r.walk
  | node h cs, hs, hnodup, hcontext => by
      have hsub : walkAll cs ⊆ (node h cs).walk := by simp [walk]
      have hbelow : ∀ c ∈ context, c.head.id ∉ (walkAll cs).map Rule.id :=
        fun c hc hmem => hcontext c hc (List.map_subset _ hsub hmem)
      rw [walk, List.map_cons, List.nodup_cons] at hnodup
      rw [scenes] at hs
      split_ifs at hs with hl hconj
      · refine (isOf_of_mem_scenesBeside cs hs hnodup.2 (by simpa using hbelow)).mono hsub ?_
        exact fun c hc => .inl (by simpa using hc)
      · exact (isOf_of_mem_scenesApart cs hs hnodup.2 hbelow).mono hsub fun c hc => .inl hc
      · rw [List.mem_singleton.mp hs]
        refine ⟨⟨node h cs, mem_walk_self _, rfl, by simpa using hl⟩, fun c hc => .inl hc, ?_⟩
        intro c hc hid
        exact hcontext c hc (List.mem_map.mpr ⟨node h cs, mem_walk_self _, hid.symm⟩)

theorem isOf_of_mem_scenesBeside {s : Scene} {trail : List String}
    {context before : List Commitment} {positive : Bool} : ∀ rs : List Rule,
      s ∈ scenesBeside trail context before positive rs →
      ((walkAll rs).map Rule.id).Nodup →
      (∀ c ∈ context ++ before, c.head.id ∉ (walkAll rs).map Rule.id) →
      s.IsOf (context ++ before) (walkAll rs)
  | [], hs, _, _ => by simp [scenesBeside] at hs
  | r :: rs, hs, hnodup, hgiven => by
      have hfirst : r.walk ⊆ walkAll (r :: rs) := by simp [walkAll]
      have hrest : walkAll rs ⊆ walkAll (r :: rs) := by simp [walkAll]
      rw [walkAll, List.map_append] at hnodup
      have hdisjoint := List.disjoint_of_nodup_append hnodup
      rcases List.mem_append.mp hs with hs | hs
      -- the other trees force what stands beside the first one
      · refine (isOf_of_mem_scenes r hs hnodup.of_append_left fun c hc hmem => ?_).mono hfirst ?_
        · rw [← List.append_assoc] at hc
          rcases List.mem_append.mp hc with hc | hc
          · exact hgiven c hc (List.map_subset _ hfirst hmem)
          · exact hdisjoint hmem (isOf_of_mem_forcedAll rs hc).id_mem
        · intro c hc
          rw [← List.append_assoc] at hc
          rcases List.mem_append.mp hc with hc | hc
          · exact .inl hc
          · exact .inr ((isOf_of_mem_forcedAll rs hc).mono hrest)
      · refine (isOf_of_mem_scenesBeside rs hs hnodup.of_append_right fun c hc hmem => ?_).mono
          hrest ?_
        · rw [← List.append_assoc] at hc
          rcases List.mem_append.mp hc with hc | hc
          · exact hgiven c hc (List.map_subset _ hrest hmem)
          · exact hdisjoint (isOf_of_mem_forced r hc).id_mem hmem
        · intro c hc
          rw [← List.append_assoc] at hc
          rcases List.mem_append.mp hc with hc | hc
          · exact .inl hc
          · exact .inr ((isOf_of_mem_forced r hc).mono hfirst)

theorem isOf_of_mem_scenesApart {s : Scene} {trail : List String} {context : List Commitment}
    {positive : Bool} : ∀ rs : List Rule, s ∈ scenesApart trail context positive rs →
      ((walkAll rs).map Rule.id).Nodup → (∀ c ∈ context, c.head.id ∉ (walkAll rs).map Rule.id) →
      s.IsOf context (walkAll rs)
  | [], hs, _, _ => by simp [scenesApart] at hs
  | r :: rs, hs, hnodup, hcontext => by
      have hfirst : r.walk ⊆ walkAll (r :: rs) := by simp [walkAll]
      have hrest : walkAll rs ⊆ walkAll (r :: rs) := by simp [walkAll]
      rw [walkAll, List.map_append] at hnodup
      rcases List.mem_append.mp hs with hs | hs
      · refine (isOf_of_mem_scenes r hs hnodup.of_append_left fun c hc hmem => ?_).mono hfirst
          fun c hc => .inl hc
        exact hcontext c hc (List.map_subset _ hfirst hmem)
      · refine (isOf_of_mem_scenesApart rs hs hnodup.of_append_right fun c hc hmem => ?_).mono hrest
          fun c hc => .inl hc
        exact hcontext c hc (List.map_subset _ hrest hmem)

end

end Origin

end Rule

namespace Plan

/-- The commitments that the trees of a policy force. -/
def forcedOf (p : Plan) (policy : String) : List Commitment :=
  Rule.forcedAll true (p.rootsOf policy)

/-- The scenes of the trees of a policy. -/
def scenesOf (p : Plan) (policy : String) : List Scene :=
  Rule.scenesBeside [] [] [] true (p.rootsOf policy)

variable {p : Plan} {d : Document}

theorem walkAll_rootsOf_sublist (hd : d ∈ p.documents) :
    ((Rule.walkAll (p.rootsOf d.policy)).map fun r => (d.policy, r)).Sublist p.placed :=
  List.sublist_flatten_of_mem (List.mem_map.mpr ⟨d, hd, rfl⟩)

theorem nodup_walkAll_rootsOf (hp : p.IsSound) (hd : d ∈ p.documents) :
    ((Rule.walkAll (p.rootsOf d.policy)).map Rule.id).Nodup := by
  have hsub := (walkAll_rootsOf_sublist hd).map fun q => q.2.id
  rw [List.map_map] at hsub
  exact hp.ids.sublist hsub

end Plan

namespace Commitment

/-- The literal of a commitment in a policy. -/
def literal (cfg : Settings) (policy : String) (c : Commitment) : Literal :=
  ⟨Plan.conditionNode cfg policy c.head, c.positive⟩

/-- Whether a commitment is about a comparison that a plan places in a policy. -/
def IsPlaced (p : Plan) (policy : String) (c : Commitment) : Prop :=
  ∃ r, (policy, r) ∈ p.placed ∧ r.head = c.head ∧ r.head.operator.isLogical = false

theorem IsOf.isPlaced {p : Plan} {d : Document} (hd : d ∈ p.documents) {c : Commitment}
    (h : c.IsOf (Rule.walkAll (p.rootsOf d.policy))) : c.IsPlaced p d.policy := by
  obtain ⟨t, ht, he⟩ := h
  exact ⟨t, (Plan.walkAll_rootsOf_sublist hd).subset (List.mem_map_of_mem ht), he⟩

end Commitment

namespace Plan

variable {p : Plan} {d : Document}

theorem isPlaced_of_mem_forcedOf (hd : d ∈ p.documents) {c : Commitment}
    (hc : c ∈ p.forcedOf d.policy) : c.IsPlaced p d.policy :=
  (Rule.isOf_of_mem_forcedAll _ hc).isPlaced hd

theorem isPlaced_of_mem_scenesOf (hp : p.IsSound) (hd : d ∈ p.documents) {s : Scene}
    (hs : s ∈ p.scenesOf d.policy) :
    s.leaf.IsPlaced p d.policy ∧
      ∀ c ∈ s.context, c.IsPlaced p d.policy ∧ c.head.id ≠ s.leaf.head.id := by
  have hof := Rule.isOf_of_mem_scenesBeside _ hs (nodup_walkAll_rootsOf hp hd) (by simp)
  refine ⟨hof.leaf.isPlaced hd, fun c hc => ⟨?_, hof.apart c hc⟩⟩
  exact ((hof.context c hc).resolve_left (by simp)).isPlaced hd

end Plan

/-- The path of a scene in a policy. -/
def Scene.path (cfg : Settings) (policy : String) (s : Scene) : Path :=
  ⟨s.leaf.literal cfg policy, s.context.map (Commitment.literal cfg policy),
    s.trail.map fun k => .str (Node.conditionKey k)⟩

namespace PolicyGraph

variable {cfg : Settings} {g : PolicyGraph} {p : Plan} {policy : String} {r : Rule}

section Forcing

/-- Whether the nodes of a graph have the trees of a plan below them, and whether there are as many
nodes as the trees have levels. -/
structure HasTreesOf (g : PolicyGraph) (cfg : Settings) (p : Plan) : Prop where
  branches {q : String × Rule} (hq : q ∈ p.placed) :
    ∃ bs, g.ruleChildren (.str (Node.conditionKey q.2.id)) = .ok bs ∧
      List.Forall₂ (fun c b => b.node = Plan.conditionNode cfg q.1 c.head ∧
        b.edge.isNegated = decide (q.2.operator = .not)) q.2.children bs
  roots {d : Document} (hd : d ∈ p.documents) :
    ∃ bs, g.policyRoots (.str d.policy) = .ok bs ∧
      List.Forall₂ (fun c b => b.node = Plan.conditionNode cfg d.policy c.head ∧
        b.edge.isNegated = false) (p.rootsOf d.policy) bs
  depth {q : String × Rule} (hq : q ∈ p.placed) : q.2.depth ≤ g.nodes.length

theorem IsDrawnFrom.hasTreesOf (h : g.IsDrawnFrom cfg p) : g.HasTreesOf cfg p where
  branches := h.ruleChildren_condition
  roots := h.policyRoots_policy
  depth := h.depth_le

theorem HasTreesOf.exists_demands_eq (h : g.HasTreesOf cfg p) (hr : (policy, r) ∈ p.placed)
    (positive : Bool) :
    ∃ bs, g.ruleChildren (Plan.conditionNode cfg policy r.head).id = .ok bs ∧
      demands positive bs = r.children.map fun c =>
        (Plan.conditionNode cfg policy c.head, positive != decide (r.head.operator = .not)) := by
  obtain ⟨bs, hbs, hall⟩ := h.branches hr
  refine ⟨bs, hbs, Attempt.map_eq_map_of_forall₂ (hall.imp fun c b hb => ?_)⟩
  rw [hb.1, hb.2]
  rfl

theorem depth_le_of_mem_children {levels : Nat} (hdepth : r.depth ≤ levels + 1) {c : Rule}
    (hc : c ∈ r.children) : c.depth ≤ levels := by
  obtain ⟨head, cs⟩ := r
  have hchild : c.depth ≤ Rule.depthOf cs := Rule.depth_le_depthOf hc
  simp only [Rule.depth] at hdepth
  omega

theorem HasTreesOf.depth_le_depthBound (h : g.HasTreesOf cfg p) (hr : (policy, r) ∈ p.placed) :
    r.depth ≤ g.depthBound := by
  have hdepth : r.depth ≤ g.nodes.length := h.depth hr
  unfold depthBound
  omega

/-- What a node needs to take a truth value is what its tree forces, within its depth. -/
theorem HasTreesOf.mustHoldTo_eq (h : g.HasTreesOf cfg p) (hr : (policy, r) ∈ p.placed)
    {levels : Nat} (hdepth : r.depth ≤ levels) (positive : Bool) :
    g.mustHoldTo levels (Plan.conditionNode cfg policy r.head, positive) =
      .ok ((r.forced positive).map (Commitment.literal cfg policy)) := by
  induction levels generalizing r positive with
  | zero =>
      obtain ⟨head, cs⟩ := r
      simp [Rule.depth] at hdepth
  | succ levels ih =>
      rw [mustHoldTo, Plan.conditionNode_isLeaf, Rule.forced_eq]
      by_cases hl : r.head.operator.isLogical = true
      · obtain ⟨bs, hbs, hdemands⟩ := h.exists_demands_eq hr positive
        have hparts := Attempt.mapM_eq_ok_map fun c hc =>
          ih (Plan.placed_child hr hc) (depth_le_of_mem_children hdepth hc)
            (positive != decide (r.head.operator = .not))
        rw [if_neg (by simp [hl]), if_pos hl, Plan.conditionNode_operator?, Attempt.ok_bind]
        by_cases hc : isConjunctive (some r.head.operator) positive = true
        · rw [if_neg (by simp [hc]), if_pos hc, hbs, Attempt.ok_bind, hdemands, List.mapM_map]
          simp only [Function.comp_def, hparts, Attempt.ok_bind]
          rw [Rule.forcedAll_eq_flatMap, List.map_flatMap, List.flatMap]
          rfl
        · rw [if_pos (by simpa using hc), if_neg hc]
          rfl
      · rw [if_pos (by simp [hl]), if_neg hl]
        rfl

/-- What a node needs to take a truth value is what its tree forces. -/
theorem HasTreesOf.mustHold_eq (h : g.HasTreesOf cfg p) (hr : (policy, r) ∈ p.placed)
    (positive : Bool) :
    g.mustHold (Plan.conditionNode cfg policy r.head) positive =
      .ok ((r.forced positive).map (Commitment.literal cfg policy)) :=
  h.mustHoldTo_eq hr (h.depth_le_depthBound hr) positive

theorem HasTreesOf.rootDemands_eq (h : g.HasTreesOf cfg p) {d : Document}
    (hd : d ∈ p.documents) :
    g.rootDemands (.str d.policy) =
      .ok ((p.rootsOf d.policy).map fun r => (Plan.conditionNode cfg d.policy r.head, true)) := by
  obtain ⟨bs, hbs, hall⟩ := h.roots hd
  rw [rootDemands, hbs, Attempt.map_ok]
  exact congrArg Except.ok (Attempt.map_eq_map_of_forall₂ (hall.imp fun _ _ hb => by rw [hb.1]))

/-- What a declared policy needs is what its trees force. -/
theorem HasTreesOf.requirements_eq (h : g.HasTreesOf cfg p) {d : Document}
    (hd : d ∈ p.documents) :
    g.requirements (.str d.policy) =
      .ok ((p.forcedOf d.policy).map (Commitment.literal cfg d.policy)) := by
  have hparts := Attempt.mapM_eq_ok_map fun r hr => h.mustHold_eq (Plan.placed_root hd hr) true
  rw [requirements, h.rootDemands_eq hd, Attempt.ok_bind, List.mapM_map]
  simp only [Function.comp_def, hparts, Attempt.ok_bind]
  rw [Plan.forcedOf, Rule.forcedAll_eq_flatMap, List.map_flatMap, List.flatMap]
  rfl

end Forcing

section Scenes

/-- Rules that are conjoined, each with the literals that the others force beside a context. -/
theorem HasTreesOf.besideOthers_eq (h : g.HasTreesOf cfg p) {rs : List Rule}
    (hrs : ∀ r ∈ rs, (policy, r) ∈ p.placed) (positive : Bool) (context : List Commitment) :
    g.besideOthers (context.map (Commitment.literal cfg policy))
        (rs.map fun r => (Plan.conditionNode cfg policy r.head, positive)) =
      .ok (rs.zipIdx.map fun x => ((Plan.conditionNode cfg policy x.1.head, positive),
        (context ++ ((rs.map (Rule.forced positive)).eraseIdx x.2).flatten).map
          (Commitment.literal cfg policy))) := by
  have hparts := Attempt.mapM_eq_ok_map fun r hr => h.mustHold_eq (hrs r hr) positive
  rw [besideOthers, List.mapM_map]
  simp only [Function.comp_def, hparts, Attempt.ok_bind]
  rw [List.zipIdx_map, List.map_map]
  simp only [List.map_append, List.map_flatten, List.eraseIdx_map, List.map_map]
  rfl

/-- The paths below a node are the scenes of its tree. -/
theorem HasTreesOf.descend_eq (h : g.HasTreesOf cfg p) (hr : (policy, r) ∈ p.placed)
    {levels : Nat} (hdepth : r.depth ≤ levels) (trail : List String) (context : List Commitment)
    (positive : Bool) :
    g.descend (trail.map fun k => .str (Node.conditionKey k)) levels
        ((Plan.conditionNode cfg policy r.head, positive),
          context.map (Commitment.literal cfg policy)) =
      .ok ((r.scenes trail context positive).map (Scene.path cfg policy)) := by
  induction levels generalizing r trail context positive with
  | zero =>
      obtain ⟨head, cs⟩ := r
      simp [Rule.depth] at hdepth
  | succ levels ih =>
      rw [descend, Plan.conditionNode_isLeaf, Rule.scenes_eq]
      by_cases hl : r.head.operator.isLogical = true
      · obtain ⟨bs, hbs, hdemands⟩ := h.exists_demands_eq hr positive
        have htrail : (trail.map fun k => Json.str (Node.conditionKey k)) ++
            [(Plan.conditionNode cfg policy r.head).id] =
              (trail ++ [r.id]).map fun k => Json.str (Node.conditionKey k) := by
          rw [List.map_append]
          rfl
        have hchild := fun c (hc : c ∈ r.children) =>
          @ih c (Plan.placed_child hr hc) (depth_le_of_mem_children hdepth hc) (trail ++ [r.id])
        rw [if_neg (by simp [hl]), if_pos hl, hbs, Attempt.ok_bind, Plan.conditionNode_operator?,
          Attempt.ok_bind, hdemands]
        dsimp only
        rw [htrail]
        by_cases hc : isConjunctive (some r.head.operator) positive = true
        · rw [if_pos hc, if_pos hc, h.besideOthers_eq (fun c hc => Plan.placed_child hr hc),
            Attempt.ok_bind, List.mapM_map, Rule.scenesBeside_eq_flatMap]
          have hparts := Attempt.mapM_eq_ok_map fun x (hx : x ∈ r.children.zipIdx) =>
            hchild x.1 (List.fst_mem_of_mem_zipIdx hx) (context ++ ((r.children.map
              (Rule.forced (positive != decide (r.head.operator = .not)))).eraseIdx x.2).flatten)
              (positive != decide (r.head.operator = .not))
          simp only [Function.comp_def, hparts, Attempt.ok_bind]
          rw [List.map_flatMap, List.flatMap]
          rfl
        · have hparts := Attempt.mapM_eq_ok_map fun c (hc : c ∈ r.children) =>
            hchild c hc context (positive != decide (r.head.operator = .not))
          rw [if_neg hc, if_neg hc, Attempt.ok_bind, List.mapM_map, List.mapM_map,
            Rule.scenesApart_eq_flatMap]
          simp only [Function.comp_def, hparts, Attempt.ok_bind]
          rw [List.map_flatMap, List.flatMap]
          rfl
      · rw [if_pos (by simp [hl]), if_neg hl]
        simp [Scene.path, Commitment.literal, Plan.conditionNode]
        rfl

/-- The paths of a declared policy are the scenes of its trees. -/
theorem HasTreesOf.paths_eq (h : g.HasTreesOf cfg p) {d : Document} (hd : d ∈ p.documents) :
    g.paths (.str d.policy) =
      .ok ((p.scenesOf d.policy).map (Scene.path cfg d.policy)) := by
  have hparts := Attempt.mapM_eq_ok_map fun x (hx : x ∈ (p.rootsOf d.policy).zipIdx) =>
    have hr := Plan.placed_root hd (List.fst_mem_of_mem_zipIdx hx)
    h.descend_eq hr (h.depth_le_depthBound hr) [] (([] : List Commitment) ++
      (((p.rootsOf d.policy).map (Rule.forced true)).eraseIdx x.2).flatten) true
  have hbeside := h.besideOthers_eq (fun r hr => Plan.placed_root hd hr) true []
  rw [List.map_nil] at hbeside
  rw [paths, h.rootDemands_eq hd, Attempt.ok_bind, hbeside, Attempt.ok_bind, List.mapM_map]
  simp only [List.map_nil] at hparts
  simp only [Function.comp_def, hparts, Attempt.ok_bind]
  rw [Plan.scenesOf, Rule.scenesBeside_eq_flatMap, List.map_flatMap, List.flatMap]
  rfl

end Scenes

end PolicyGraph

end Eligibility
