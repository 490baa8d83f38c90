import Mathlib.Algebra.Group.Nat.Even
import Eligibility.Proofs.Complements
/-!
# The way to every comparison of a policy

**Ways.**  A way leads from a root of some trees down to a comparison, each rule on it an operand
of the one before.  A demand for a truth value is handed down along the way and turned at
every negation, so that below an even number of negations it is the demand that the root got.

**Scenes.**  The scenes of trees follow their comparisons in pre-order.  What stands beside a
comparison is what the other operands force at each rule of its way that passes the demand
on to all of them.  So it is kept wherever the rules of the way take the truth values that are
demanded of them.

**Results.**
* `follows_scenes`: the scenes of a tree, comparison by comparison.
* `nodup_of_mem_scenes`: a scene speaks of no comparison twice.
* `isPathTo_paths`: the paths of a policy in a compiled graph.
-/

namespace Eligibility

namespace Rule

section Ways

/-- How many negations there are among some rules. -/
def negations (ts : List Rule) : Nat := ts.countP fun t => t.head.operator = .not

/-- The truth value that a demand for one has turned into below some rules. -/
def handed (positive : Bool) (above : List Rule) : Bool :=
  positive == decide (Even (negations above))

/-- Whether some rules lead from one of some trees down to a comparison. -/
structure IsWay (ts way : List Rule) (leaf : Head) : Prop where
  root : ∃ t ∈ ts, way.head? = some t
  steps : way.IsChain fun t c => c ∈ t.children
  leaf : ∃ t, way.getLast? = some t ∧ t.head = leaf

/-- Whether every rule on a way takes the truth value that a demand for the first one has turned
into there. -/
def TakesTurns (inputs : Inputs) (positive : Bool) (way : List Rule) : Prop :=
  ∀ above t, above ++ [t] <+: way →
    ∃ o, t.meaning inputs = some o ∧ o.value = some (handed positive above)

theorem handed_nil (positive : Bool) : handed positive [] = positive := by
  cases positive <;> decide

theorem handed_cons (positive : Bool) (t : Rule) (above : List Rule) :
    handed positive (t :: above) =
      handed (positive != decide (t.head.operator = .not)) above := by
  by_cases hn : t.head.operator = .not
  · have hcount : negations (t :: above) = negations above + 1 := by simp [negations, hn]
    simp only [handed, hcount, Nat.even_add_one, hn, decide_true]
    by_cases he : Even (negations above) <;> simp [he]
  · have hcount : negations (t :: above) = negations above := by simp [negations, hn]
    simp [handed, hcount, hn]

theorem handed_true {above : List Rule} :
    handed true above = true ↔ Even (negations above) := by
  simp [handed]

variable {ts us way : List Rule} {leaf : Head}

theorem mem_walkAll_of_isChain {way : List Rule} (hsteps : way.IsChain fun t c => c ∈ t.children)
    (hroot : ∀ t, way.head? = some t → t ∈ walkAll ts) : ∀ t ∈ way, t ∈ walkAll ts := by
  induction way with
  | nil => simp
  | cons r way ih =>
      obtain ⟨hnext, hsteps⟩ := List.isChain_cons.mp hsteps
      have hr := hroot r rfl
      exact List.forall_mem_cons.mpr
        ⟨hr, ih hsteps fun t ht => mem_walkAll_of_mem_children (hnext t ht) ts hr⟩

/-- A way stays within the trees. -/
theorem IsWay.mem_walkAll (h : IsWay ts way leaf) : ∀ t ∈ way, t ∈ walkAll ts := by
  refine mem_walkAll_of_isChain h.steps fun t ht => ?_
  obtain ⟨r, hr, hfirst⟩ := h.root
  obtain rfl := Option.some.inj (hfirst.symm.trans ht)
  exact Rule.mem_walkAll.mpr ⟨r, hr, mem_walk_self r⟩

theorem IsWay.mono (h : IsWay ts way leaf) (hsub : ts ⊆ us) : IsWay us way leaf where
  root := h.root.imp fun _ ht => ⟨hsub ht.1, ht.2⟩
  steps := h.steps
  leaf := h.leaf

theorem isWay_singleton (r : Rule) : IsWay [r] [r] r.head where
  root := ⟨r, List.mem_singleton_self r, rfl⟩
  steps := .singleton r
  leaf := ⟨r, rfl, rfl⟩

theorem IsWay.cons {r : Rule} (h : IsWay r.children way leaf) : IsWay [r] (r :: way) leaf where
  root := ⟨r, List.mem_singleton_self r, rfl⟩
  steps := by
    obtain ⟨t, ht, hfirst⟩ := h.root
    refine h.steps.cons fun c hc => ?_
    obtain rfl := Option.some.inj (hfirst.symm.trans hc)
    exact ht
  leaf := by
    obtain ⟨t, hlast, ht⟩ := h.leaf
    exact ⟨t, by rw [List.getLast?_cons, hlast]; rfl, ht⟩

theorem TakesTurns.tail {inputs : Inputs} {positive : Bool} {r : Rule}
    (h : TakesTurns inputs positive (r :: way)) :
    TakesTurns inputs (positive != decide (r.head.operator = .not)) way := by
  intro above t ht
  obtain ⟨o, ho, hv⟩ := h (r :: above) t (List.cons_prefix_cons.mpr ⟨rfl, ht⟩)
  exact ⟨o, ho, by rw [hv, handed_cons]⟩

theorem TakesTurns.head {inputs : Inputs} {positive : Bool} {r : Rule}
    (h : TakesTurns inputs positive (r :: way)) :
    ∃ o, r.meaning inputs = some o ∧ o.value = some positive := by
  obtain ⟨o, ho, hv⟩ := h [] r (List.cons_prefix_cons.mpr ⟨rfl, List.nil_prefix⟩)
  exact ⟨o, ho, by rw [hv, handed_nil]⟩

end Ways

end Rule

section Following

open Rule

/-- Whether a scene tells of a way to a comparison, and beside the comparison stands what is kept
wherever given commitments are and the rules on the way take the truth values demanded of them. -/
structure Scene.Follows (given : List Commitment) (trail : List String) (positive : Bool)
    (ts way : List Rule) (leaf : Head) (s : Scene) : Prop where
  isWay : IsWay ts way leaf
  trail_eq : s.trail = trail ++ way.map Rule.id
  leaf_eq : s.leaf = ⟨leaf, handed positive way⟩
  kept (inputs : Inputs) : TakesTurns inputs positive way →
    (∀ c ∈ given, c.IsKept inputs) → ∀ c ∈ s.context, c.IsKept inputs

variable {given all : List Commitment} {trail : List String} {positive : Bool}
  {ts us way : List Rule} {leaf : Head} {s : Scene}

theorem Scene.Follows.mono (h : s.Follows given trail positive ts way leaf) (hts : ts ⊆ us)
    (hgiven : given ⊆ all) : s.Follows all trail positive us way leaf where
  isWay := h.isWay.mono hts
  trail_eq := h.trail_eq
  leaf_eq := h.leaf_eq
  kept := fun inputs hturns hall => h.kept inputs hturns fun c hc => hall c (hgiven hc)

/-- A scene of the operands of a rule is one of the rule, if what is given to the operands is kept
wherever the rule takes the truth value demanded of it. -/
theorem Scene.Follows.cons {r : Rule}
    (h : s.Follows given (trail ++ [r.id]) (positive != decide (r.head.operator = .not))
      r.children way leaf)
    (hgiven : ∀ inputs, (∃ o, r.meaning inputs = some o ∧ o.value = some positive) →
      (∀ c ∈ all, c.IsKept inputs) → ∀ c ∈ given, c.IsKept inputs) :
    s.Follows all trail positive [r] (r :: way) leaf where
  isWay := h.isWay.cons
  trail_eq := by rw [h.trail_eq, List.append_assoc]; rfl
  leaf_eq := by rw [h.leaf_eq, handed_cons]
  kept := fun inputs hturns hall =>
    h.kept inputs hturns.tail (hgiven inputs hturns.head hall)

namespace Rule

variable {context before : List Commitment}

/-- Whether all heads of some rules are sound. -/
def AreSound (ts : List Rule) : Prop := ∀ t ∈ ts, t.head.IsSound t.children.length

theorem AreSound.below {h : Head} {cs : List Rule} (hs : AreSound (node h cs).walk) :
    AreSound (walkAll cs) :=
  fun t ht => hs t (by simp [walk, ht])

theorem AreSound.cons {r : Rule} {rs : List Rule} (hs : AreSound (walkAll (r :: rs))) :
    AreSound r.walk ∧ AreSound (walkAll rs) :=
  List.forall_mem_append.mp hs

theorem AreSound.exists_operand {h : Head} {cs : List Rule} (hs : AreSound (node h cs).walk)
    (hn : h.operator = .not) : ∃ c, cs = [c] := by
  have hlogical := (hs _ (mem_walk_self _)).logical (by rw [head_node, hn]; rfl)
  exact List.length_eq_one_iff.mp (hlogical.2.2 hn)

theorem AreSound.children_eq_nil {h : Head} {cs : List Rule} (hs : AreSound (node h cs).walk)
    (hl : ¬ h.operator.isLogical = true) : cs = [] :=
  List.length_eq_zero_iff.mp ((hs _ (mem_walk_self _)).comparison (by simpa using hl)).1

theorem leafHeads_node {h : Head} {cs : List Rule} (hl : h.operator.isLogical = true) :
    (node h cs).leafHeads = cs.flatMap leafHeads := by
  rw [leafHeads, heads, List.filter_cons_of_neg (by simp [Operator.isComparison, hl]),
    headsOf_eq_flatMap, List.filter_flatMap]
  rfl

theorem leafHeads_comparison {h : Head} (hl : ¬ h.operator.isLogical = true) :
    (node h []).leafHeads = [h] := by
  simp [leafHeads, heads, headsOf, Operator.isComparison, hl]

mutual

/-- The scenes of a tree follow its comparisons. -/
theorem follows_scenes (trail : List String) (context : List Commitment)
    (positive : Bool) : ∀ r : Rule, AreSound r.walk →
      List.Forall₂ (fun leaf s => ∃ way, s.Follows context trail positive [r] way leaf)
        r.leafHeads (r.scenes trail context positive)
  | node h cs, hsound => by
      rw [scenes]
      split_ifs with hl hconj
      · rw [leafHeads_node hl]
        refine (follows_scenesBeside (trail ++ [h.id]) context []
          (positive != decide (h.operator = .not)) cs hsound.below).imp ?_
        rintro leaf s ⟨way, hway⟩
        -- all operands take the values that the demand turns into, and keep what they force
        refine ⟨_, hway.cons (r := node h cs) fun inputs hvalue hcontext => ?_⟩
        obtain ⟨o, ho, hv⟩ := hvalue
        refine List.forall_mem_append.mpr ⟨by simpa using hcontext, fun c hc => ?_⟩
        refine isKept_of_mem_forced (node h cs) ho hv ?_
        rwa [forced, if_pos hl, if_pos hconj]
      · rw [leafHeads_node hl]
        refine (follows_scenesApart (trail ++ [h.id]) context
          (positive != decide (h.operator = .not)) cs hsound.below).imp ?_
        rintro leaf s ⟨way, hway⟩
        exact ⟨_, hway.cons (r := node h cs) fun _ _ hcontext => hcontext⟩
      · obtain rfl := hsound.children_eq_nil hl
        rw [leafHeads_comparison hl]
        refine .cons ⟨[node h []], isWay_singleton _, rfl, ?_, fun _ _ hcontext => hcontext⟩ .nil
        have hn : ¬ h.operator = .not := fun hn => hl (by rw [hn]; rfl)
        rw [handed_cons, handed_nil]
        simp [hn]

/-- The scenes of conjoined trees follow their comparisons. -/
theorem follows_scenesBeside (trail : List String) (context before : List Commitment)
    (positive : Bool) : ∀ rs : List Rule, AreSound (walkAll rs) →
      List.Forall₂ (fun leaf s => ∃ way, s.Follows (context ++ before ++ forcedAll positive rs)
        trail positive rs way leaf)
        (rs.flatMap leafHeads) (scenesBeside trail context before positive rs)
  | [], _ => .nil
  | r :: rs, hsound => by
      obtain ⟨hfirst, hrest⟩ := hsound.cons
      refine List.rel_append ((follows_scenes trail _ positive r hfirst).imp ?_)
        ((follows_scenesBeside trail context (before ++ forced positive r) positive rs
          hrest).imp ?_)
      · rintro leaf s ⟨way, hway⟩
        refine ⟨way, hway.mono (by simp) fun c hc => ?_⟩
        simp only [forcedAll, List.mem_append] at hc ⊢
        tauto
      · rintro leaf s ⟨way, hway⟩
        refine ⟨way, hway.mono (by simp) fun c hc => ?_⟩
        simp only [forcedAll, List.mem_append] at hc ⊢
        tauto

/-- The scenes of trees that are not conjoined follow their comparisons. -/
theorem follows_scenesApart (trail : List String) (context : List Commitment)
    (positive : Bool) : ∀ rs : List Rule, AreSound (walkAll rs) →
      List.Forall₂ (fun leaf s => ∃ way, s.Follows context trail positive rs way leaf)
        (rs.flatMap leafHeads) (scenesApart trail context positive rs)
  | [], _ => .nil
  | r :: rs, hsound => by
      obtain ⟨hfirst, hrest⟩ := hsound.cons
      refine List.rel_append ((follows_scenes trail context positive r hfirst).imp ?_)
        ((follows_scenesApart trail context positive rs hrest).imp ?_)
      · rintro leaf s ⟨way, hway⟩
        exact ⟨way, hway.mono (by simp) (List.Subset.refl _)⟩
      · rintro leaf s ⟨way, hway⟩
        exact ⟨way, hway.mono (by simp) (List.Subset.refl _)⟩

end

end Rule

end Following

section Repetition

namespace Rule

mutual

/-- The comparisons that a tree commits to stand in the tree in the same order. -/
theorem ids_forced_sublist (positive : Bool) :
    ∀ r : Rule, ((r.forced positive).map fun c => c.head.id).Sublist (r.walk.map Rule.id)
  | node h cs => by
      rw [forced, walk, List.map_cons]
      split_ifs with hl hconj
      · exact (ids_forcedAll_sublist _ cs).cons _
      · exact List.nil_sublist _
      · exact (List.nil_sublist _).cons_cons _

theorem ids_forcedAll_sublist (positive : Bool) : ∀ rs : List Rule,
    ((forcedAll positive rs).map fun c => c.head.id).Sublist ((walkAll rs).map Rule.id)
  | [] => List.nil_sublist _
  | r :: rs => by
      rw [forcedAll, walkAll, List.map_append, List.map_append]
      exact (ids_forced_sublist positive r).append (ids_forcedAll_sublist positive rs)

end

variable {context before : List Commitment} {positive : Bool}

theorem ids_walkAll_cons (r : Rule) (rs : List Rule) :
    (walkAll (r :: rs)).map Rule.id = r.walk.map Rule.id ++ (walkAll rs).map Rule.id := by
  rw [walkAll, List.map_append]

/-- The commitments beside a tree and what the trees behind it force stand apart from the tree. -/
theorem nodup_first {r : Rule} {rs : List Rule}
    (h : ((context ++ before).map (fun c => c.head.id) ++
      (walkAll (r :: rs)).map Rule.id).Nodup) :
    ((context ++ (before ++ forcedAll positive rs)).map (fun c => c.head.id) ++
      r.walk.map Rule.id).Nodup := by
  rw [← List.append_assoc, List.map_append, List.append_assoc]
  rw [ids_walkAll_cons] at h
  exact (List.perm_append_comm.append_left _).nodup_iff.mpr
    (h.sublist (((List.Sublist.refl _).append (ids_forcedAll_sublist positive rs)).append_left _))

/-- What a tree forces stands apart from the trees behind it, as do the commitments beside it. -/
theorem nodup_rest {r : Rule} {rs : List Rule}
    (h : ((context ++ before).map (fun c => c.head.id) ++
      (walkAll (r :: rs)).map Rule.id).Nodup) :
    ((context ++ (before ++ forced positive r)).map (fun c => c.head.id) ++
      (walkAll rs).map Rule.id).Nodup := by
  rw [← List.append_assoc, List.map_append, List.append_assoc]
  rw [ids_walkAll_cons] at h
  exact h.sublist
    (((ids_forced_sublist positive r).append (List.Sublist.refl _)).append_left _)

mutual

/-- A scene speaks of no comparison twice. -/
theorem nodup_of_mem_scenes {s : Scene} {trail : List String} {context : List Commitment}
    {positive : Bool} : ∀ r : Rule, s ∈ r.scenes trail context positive →
      (context.map (fun c => c.head.id) ++ r.walk.map Rule.id).Nodup →
      ((s.leaf :: s.context).map fun c => c.head.id).Nodup
  | node h cs, hs, hnodup => by
      have hbelow : (context.map (fun c => c.head.id) ++ (walkAll cs).map Rule.id).Nodup :=
        hnodup.sublist (((List.sublist_cons_self _ _).map _).append_left _)
      rw [scenes] at hs
      split_ifs at hs with hl hconj
      · exact nodup_of_mem_scenesBeside cs hs (by simpa using hbelow)
      · exact nodup_of_mem_scenesApart cs hs hbelow
      · rw [List.mem_singleton.mp hs]
        have hself : [h.id].Sublist ((node h cs).walk.map Rule.id) :=
          List.singleton_sublist.mpr (List.mem_map_of_mem (mem_walk_self (node h cs)))
        exact (List.perm_append_singleton _ _).nodup_iff.mp (hnodup.sublist (hself.append_left _))

theorem nodup_of_mem_scenesBeside {s : Scene} {trail : List String}
    {context before : List Commitment} {positive : Bool} :
    ∀ rs : List Rule, s ∈ scenesBeside trail context before positive rs →
      ((context ++ before).map (fun c => c.head.id) ++ (walkAll rs).map Rule.id).Nodup →
      ((s.leaf :: s.context).map fun c => c.head.id).Nodup
  | [], hs, _ => by simp [scenesBeside] at hs
  | r :: rs, hs, hnodup => by
      rcases List.mem_append.mp hs with hs | hs
      · exact nodup_of_mem_scenes r hs (nodup_first hnodup)
      · exact nodup_of_mem_scenesBeside rs hs (nodup_rest hnodup)

theorem nodup_of_mem_scenesApart {s : Scene} {trail : List String} {context : List Commitment}
    {positive : Bool} : ∀ rs : List Rule, s ∈ scenesApart trail context positive rs →
      (context.map (fun c => c.head.id) ++ (walkAll rs).map Rule.id).Nodup →
      ((s.leaf :: s.context).map fun c => c.head.id).Nodup
  | [], hs, _ => by simp [scenesApart] at hs
  | r :: rs, hs, hnodup => by
      rw [ids_walkAll_cons] at hnodup
      rcases List.mem_append.mp hs with hs | hs
      · exact nodup_of_mem_scenes r hs
          (hnodup.sublist ((List.sublist_append_left _ _).append_left _))
      · exact nodup_of_mem_scenesApart rs hs
          (hnodup.sublist ((List.sublist_append_right _ _).append_left _))

end

end Rule

end Repetition

namespace PolicyGraph

/-- Whether a path leads down a way to a comparison of a policy with given roots: it names the
rules of the way, and its leaf is to hold below an even number of negations and to fail below
an odd number.  It speaks of no comparison twice, and its context is kept wherever the roots hold
and every rule of the way has the truth value that the leaf would be given in its place. -/
structure IsPathTo (g : PolicyGraph) (roots way : List Rule) (leaf : Head) (x : Path) : Prop where
  isWay : Rule.IsWay roots way leaf
  node : g.node? (.str (Node.conditionKey leaf.id)) = some x.leaf.node
  trail : x.trail = way.map fun t => .str (Node.conditionKey t.id)
  positive : x.leaf.positive = true ↔ Even (Rule.negations way)
  nodup : (x.literals.map fun l => l.node.id).Nodup
  kept (inputs : Inputs) : (∀ r ∈ roots, g.RuleHasValue inputs r.id (some true)) →
    (∀ above t, above ++ [t] <+: way →
      g.RuleHasValue inputs t.id (some (decide (Even (Rule.negations above))))) →
    ∀ l ∈ x.context, g.Keeps inputs l

variable {cfg : Settings} {g : PolicyGraph} {p : Plan} {s : RuleSet} {policy : String}

theorem IsDrawnFrom.ruleHasValue_iff (h : g.IsDrawnFrom cfg p) {inputs : Inputs} {r : Rule}
    (hr : (policy, r) ∈ p.placed) {v : Option Bool} :
    g.RuleHasValue inputs r.id v ↔ ∃ o, r.meaning inputs = some o ∧ o.value = v := by
  rw [← h.hasValue_iff hr, RuleHasValue, h.node?_condition hr]
  simp

/-- The path of a scene of a policy leads down the way of the scene. -/
theorem IsDrawnFrom.isPathTo_path (h : g.IsDrawnFrom cfg p) {d : Document} (hd : d ∈ p.documents)
    {way : List Rule} {leaf : Head} {x : Scene} (hx : x ∈ p.scenesOf d.policy)
    (hfollows : x.Follows (p.forcedOf d.policy) [] true (p.rootsOf d.policy) way leaf) :
    g.IsPathTo (p.rootsOf d.policy) way leaf (x.path cfg d.policy) := by
  have hplaced : ∀ t ∈ Rule.walkAll (p.rootsOf d.policy), (d.policy, t) ∈ p.placed := fun t ht =>
    (Plan.walkAll_rootsOf_sublist hd).subset (List.mem_map_of_mem ht)
  have hway : ∀ t ∈ way, (d.policy, t) ∈ p.placed := fun t ht =>
    hplaced t (hfollows.isWay.mem_walkAll t ht)
  refine ⟨hfollows.isWay, ?_, ?_, ?_, ?_, fun inputs hroots hturns => ?_⟩
  · obtain ⟨t, hlast, rfl⟩ := hfollows.isWay.leaf
    rw [Scene.path, Commitment.literal, hfollows.leaf_eq]
    exact h.node?_condition (hway t (List.mem_of_getLast? hlast))
  · rw [Scene.path, hfollows.trail_eq, List.nil_append, List.map_map]
    rfl
  · rw [Scene.path, Commitment.literal, hfollows.leaf_eq]
    exact Rule.handed_true
  · have hids := Rule.nodup_of_mem_scenesBeside _ hx
      (by simpa using Plan.nodup_walkAll_rootsOf h.sound hd)
    have hkeys : (x.path cfg d.policy).literals.map (fun l => l.node.id) =
        ((x.leaf :: x.context).map fun c => c.head.id).map fun k => .str (Node.conditionKey k) := by
      simp [Path.literals, Scene.path, Commitment.literal, Plan.conditionNode, Function.comp_def]
    rw [hkeys]
    exact hids.map fun a b hab => Node.conditionKey_inj.mp (Json.str.inj hab)
  · have hgiven : ∀ c ∈ p.forcedOf d.policy, c.IsKept inputs := by
      intro c hc
      rw [Plan.forcedOf, Rule.forcedAll_eq_flatMap] at hc
      obtain ⟨r, hr, hc⟩ := List.mem_flatMap.mp hc
      obtain ⟨o, ho, hv⟩ := (h.ruleHasValue_iff (Plan.placed_root hd hr)).mp (hroots r hr)
      exact Rule.isKept_of_mem_forced r ho hv hc
    have hmeanings : Rule.TakesTurns inputs true way := by
      intro above t ht
      obtain ⟨o, ho, hv⟩ := (h.ruleHasValue_iff (hway t (ht.subset (by simp)))).mp
        (hturns above t ht)
      exact ⟨o, ho, by rw [hv]; simp [Rule.handed]⟩
    intro l hl
    obtain ⟨c, hc, rfl⟩ := List.mem_map.mp hl
    exact h.keeps_literal ((Plan.isPlaced_of_mem_scenesOf h.sound hd hx).2 c hc).1
      (hfollows.kept inputs hmeanings hgiven c hc)

/-- The paths of a policy lead to the comparisons of its trees, one to each, in pre-order. -/
theorem isPathTo_paths (hs : s.validate cfg = .ok s) (hg : (s.build cfg).outcome = .ok g)
    (hpolicy : g.IsInternal policy) :
    ∃ ps, g.paths (.str policy) = .ok ps ∧
      List.Forall₂
        (fun leaf x => ∃ way, g.IsPathTo (s.rules.filter (s.assigns policy)) way leaf x)
        ((s.rules.filter (s.assigns policy)).flatMap Rule.leafHeads) ps := by
  obtain ⟨p, hp, h⟩ := isDrawnFrom_of_build hs hg
  obtain ⟨d, hd, rfl⟩ := List.mem_map.mp (h.isInternal_iff.mp hpolicy)
  rw [← Plan.rootsOf_eq (RuleSet.isAccepted_of_validate hs).1 (RuleSet.checkedPlan_spec hp).1]
  refine ⟨_, h.hasTreesOf.paths_eq hd, List.forall₂_map_right_iff.mpr ?_⟩
  have hsound : Rule.AreSound (Rule.walkAll (p.rootsOf d.policy)) := fun t ht =>
    h.sound.rules (d.policy, t)
      ((Plan.walkAll_rootsOf_sublist hd).subset (List.mem_map_of_mem ht))
  obtain ⟨hlength, hfollows⟩ :=
    List.forall₂_iff_zip.mp (Rule.follows_scenesBeside [] [] [] true _ hsound)
  refine List.forall₂_iff_zip.mpr ⟨hlength, fun hmem => ?_⟩
  obtain ⟨way, hway⟩ := hfollows hmem
  exact ⟨way, h.isPathTo_path hd (List.of_mem_zip hmem).2 hway⟩

/-- The paths of the permit lead over its negation and its disjunction to the two comparisons, which
are to fail. -/
theorem isPathTo_paths_permit : ∃ (g : PolicyGraph) (x y : Path),
    (permit.build .standard).outcome = .ok g ∧ g.paths (.str "permit") = .ok [x, y] ∧
    (∃ way leaf, g.IsPathTo (permit.rules.take 1) way leaf x ∧ leaf.id = "a") ∧
    (∃ way leaf, g.IsPathTo (permit.rules.take 1) way leaf y ∧ leaf.id = "b") ∧
    x.trail = ["n", "o", "a"].map (fun k => .str (Node.conditionKey k)) ∧
    x.leaf.positive = false ∧ y.leaf.positive = false := by
  obtain ⟨g, hs, hg, h⟩ := exists_permit
  obtain ⟨ps, hps, hall⟩ := isPathTo_paths hs hg (h.isInternal_iff.mpr List.mem_cons_self)
  obtain rfl := Except.ok.inj
    (hps.symm.trans (h.hasTreesOf.paths_eq (p := permitPlan) List.mem_cons_self))
  obtain ⟨hx, hy⟩ := List.forall₂_cons.mp hall
  obtain ⟨hy, -⟩ := List.forall₂_cons.mp hy
  exact ⟨g, _, _, hg, hps, hx.imp fun _ hway => ⟨_, hway, rfl⟩,
    hy.imp fun _ hway => ⟨_, hway, rfl⟩, rfl, rfl, rfl⟩

end PolicyGraph

end Eligibility
