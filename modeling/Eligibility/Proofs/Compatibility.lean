import Eligibility.Proofs.Trails
/-!
# What a checked policy requires can hold together

**Meeting.**  Two comparisons that a policy requires part at some node: at a root they do not
share, or at a node that passes its demand on to all its operands.  There each stands
among what the other operands force, so it stands beside the other one on that one's path.

**Check.**  The check of a policy only compares the leaf of a path with its context.  As any two
literals that are required meet on a path, it misses no contradiction between two of them.

**Results.**
* `exists_scene_of_mem_forced`: beside a comparison that is forced stands all else that is.
* `IsDrawnFrom.nodup_requirements`: a policy requires no literal twice.
* `isCompatible_of_precheck`: the literals that a checked policy requires are compatible.
-/

namespace Eligibility

section Meeting

/-- Whether every one of some commitments that is not that of a scene stands beside it. -/
def Scene.Faces (s : Scene) (cs : List Commitment) : Prop := ∀ c ∈ cs, c = s.leaf ∨ c ∈ s.context

theorem Scene.Faces.mono {s : Scene} {cs ds : List Commitment} (h : s.Faces cs) (hsub : ds ⊆ cs) :
    s.Faces ds :=
  fun c hc => h c (hsub hc)

namespace Rule

variable {a : Commitment}

mutual

/-- A comparison that a tree forces has a scene, and beside it stands all else that is forced. -/
theorem exists_scene_of_mem_forced (trail : List String) (context : List Commitment)
    {positive : Bool} : ∀ r : Rule, a ∈ r.forced positive →
      ∃ s ∈ r.scenes trail context positive, s.leaf = a ∧
        s.Faces (context ++ r.forced positive)
  | node h cs, ha => by
      rw [forced] at ha ⊢
      rw [scenes]
      split_ifs at ha ⊢ with hl hconj
      · simpa using exists_scene_of_mem_forcedAll (trail ++ [h.id]) context [] cs ha
      · simp at ha
      · obtain rfl := List.mem_singleton.mp ha
        refine ⟨_, List.mem_singleton_self _, rfl, fun c hc => ?_⟩
        rcases List.mem_append.mp hc with hc | hc
        · exact .inr hc
        · exact .inl (List.mem_singleton.mp hc)

theorem exists_scene_of_mem_forcedAll (trail : List String) (context before : List Commitment)
    {positive : Bool} : ∀ rs : List Rule, a ∈ forcedAll positive rs →
      ∃ s ∈ scenesBeside trail context before positive rs, s.leaf = a ∧
        s.Faces (context ++ before ++ forcedAll positive rs)
  | [], ha => by simp [forcedAll] at ha
  | r :: rs, ha => by
      rcases List.mem_append.mp ha with ha | ha
      -- beside the first tree stands what the trees behind it force
      · obtain ⟨s, hs, hleaf, hfaces⟩ :=
          exists_scene_of_mem_forced trail (context ++ (before ++ forcedAll positive rs)) r ha
        refine ⟨s, List.mem_append_left _ hs, hleaf, hfaces.mono fun c hc => ?_⟩
        simp only [forcedAll, List.mem_append] at hc ⊢
        tauto
      -- and beside the trees behind it what the first one forces
      · obtain ⟨s, hs, hleaf, hfaces⟩ :=
          exists_scene_of_mem_forcedAll trail context (before ++ forced positive r) rs ha
        refine ⟨s, List.mem_append_right _ hs, hleaf, hfaces.mono fun c hc => ?_⟩
        simp only [forcedAll, List.mem_append] at hc ⊢
        tauto

end

end Rule

/-- Any two comparisons that a policy forces meet in a scene of the first one. -/
theorem Plan.exists_scene_of_mem_forcedOf {p : Plan} {policy : String} {a : Commitment}
    (ha : a ∈ p.forcedOf policy) :
    ∃ s ∈ p.scenesOf policy, s.leaf = a ∧ ∀ b ∈ p.forcedOf policy, b ≠ a → b ∈ s.context := by
  obtain ⟨s, hs, rfl, hfaces⟩ := Rule.exists_scene_of_mem_forcedAll [] [] [] _ ha
  exact ⟨s, hs, rfl, fun b hb hne => (hfaces b hb).resolve_left hne⟩

end Meeting

/-- Whether some value of their variable meets both literals, or they are on different ones. -/
def Literal.IsCompatible (a b : Literal) : Prop :=
  ∃ c d, a.condition = .ok c ∧ b.condition = .ok d ∧ c.jointly d = .ok true

namespace PolicyGraph

variable {cfg : Settings} {g : PolicyGraph} {p : Plan} {policy : String}

/-- Placed commitments that do not clash have compatible literals. -/
theorem isCompatible_literal (hp : p.IsSound) {a b : Commitment} (ha : a.IsPlaced p policy)
    (hb : b.IsPlaced p policy) (hno : ¬ a.Clashes b) :
    (a.literal cfg policy).IsCompatible (b.literal cfg policy) := by
  obtain ⟨k, hk, -⟩ := ha.exists_constraint hp
  obtain ⟨l, hl, -⟩ := hb.exists_constraint hp
  have hc := Commitment.condition_literal cfg policy hk
  have hd := Commitment.condition_literal cfg policy hl
  obtain ⟨answer, hanswer, hiff⟩ := Commitment.exists_jointly ha hb hp hc hd
  obtain rfl : answer = true := by
    rw [← Bool.not_eq_false]
    exact fun hfalse => hno (hiff.mp hfalse)
  exact ⟨_, _, hc, hd, hanswer⟩

/-- A policy requires the literals of what its trees force, none of them twice. -/
theorem IsDrawnFrom.nodup_requirements (h : g.IsDrawnFrom cfg p) {d : Document}
    (hd : d ∈ p.documents) :
    ((p.forcedOf d.policy).map (Commitment.literal cfg d.policy)).Nodup := by
  have hids := (Plan.nodup_walkAll_rootsOf h.sound hd).sublist
    (Rule.ids_forcedAll_sublist true (p.rootsOf d.policy))
  refine List.Nodup.of_map (fun l => l.node.id) ?_
  rw [List.map_map]
  have hkeys : ((p.forcedOf d.policy).map fun c => (c.literal cfg d.policy).node.id) =
      ((p.forcedOf d.policy).map fun c => c.head.id).map fun k =>
        .str (Node.conditionKey k) := by
    rw [List.map_map]
    rfl
  exact (hkeys ▸ hids.map fun a b hab => Node.conditionKey_inj.mp (Json.str.inj hab) :)

/-- A policy passes the check where every comparison can be met together with each one beside
it. -/
theorem IsDrawnFrom.precheck_of_jointly (h : g.IsDrawnFrom cfg p) {d : Document}
    (hd : d ∈ p.documents)
    (hscenes : ∀ s ∈ p.scenesOf d.policy, ∀ c ∈ s.context,
      (s.leaf.constraint?.bind fun k => c.constraint?.bind k.jointly) = some true) :
    g.precheck (.str d.policy) = .ok () := by
  rcases h.precheck_cases hd with ⟨hok, -⟩ | ⟨s, hs, c, hc, ⟨k, l, hk, hl, hno⟩, -⟩
  · exact hok
  · have hyes := hscenes s hs c hc
    simp [hk, hl, hno] at hyes

/-- The literals that a policy requires are distinct and compatible if the policy passes its
check. -/
theorem isCompatible_of_precheck {payload : Json}
    (hg : (RuleSet.compile cfg payload).outcome = .ok g) (hpolicy : g.IsInternal policy)
    (hcheck : g.precheck (.str policy) = .ok ()) :
    ∃ ls, g.requirements (.str policy) = .ok ls ∧ ls.Nodup ∧
      ∀ a ∈ ls, ∀ b ∈ ls, a ≠ b → a.IsCompatible b := by
  obtain ⟨p, h⟩ := (isCompiled_of_compile hg).exists_isDrawnFrom
  obtain ⟨d, hd, rfl⟩ := List.mem_map.mp (h.isInternal_iff.mp hpolicy)
  refine ⟨_, h.hasTreesOf.requirements_eq hd, h.nodup_requirements hd, ?_⟩
  have hapart : ∀ s ∈ p.scenesOf d.policy, ∀ c ∈ s.context, ¬ s.leaf.Clashes c := by
    rcases h.precheck_cases hd with ⟨-, hall⟩ | ⟨_, _, _, _, _, _, _, _, _, _, _, herror⟩
    · exact hall
    · rw [hcheck] at herror
      cases herror
  intro l hl m hm hne
  obtain ⟨a, ha, rfl⟩ := List.mem_map.mp hl
  obtain ⟨b, hb, rfl⟩ := List.mem_map.mp hm
  obtain ⟨s, hs, rfl, hbeside⟩ := Plan.exists_scene_of_mem_forcedOf ha
  exact isCompatible_literal h.sound (Plan.isPlaced_of_mem_forcedOf hd ha)
    (Plan.isPlaced_of_mem_forcedOf hd hb)
    (hapart s hs b (hbeside b hb fun he => hne (congrArg _ he.symm)))

/-- To ask for one status and against another one passes the check. -/
theorem isCompatible_of_precheck_rivals : ∃ (g : PolicyGraph) (a b : Literal),
    (RuleSet.compile .standard (rivalsPayload .eq "a" .neq "b")).outcome = .ok g ∧
      g.precheck (.str "p") = .ok () ∧ g.requirements (.str "p") = .ok [a, b] ∧
      a.IsCompatible b := by
  obtain ⟨g, hg, h, hp⟩ : ∃ g, (RuleSet.compile .standard
      (rivalsPayload .eq "a" .neq "b")).outcome = .ok g ∧ g.IsDrawnFrom .standard
        (rivalsPlan .eq "a" .neq "b") ∧ g.IsInternal "p" :=
    exists_rivals rfl (by decide +kernel) rfl (by decide +kernel)
  have hcheck : g.precheck (.str "p") = .ok () := h.precheck_of_jointly
    (d := { policy := "p", clauses := [{ id := "c" }] }) List.mem_cons_self
    (by decide +kernel)
  have hls := h.hasTreesOf.requirements_eq (d := { policy := "p", clauses := [{ id := "c" }] })
    List.mem_cons_self
  obtain ⟨ls, hls', hnodup, hall⟩ := isCompatible_of_precheck hg hp hcheck
  obtain ⟨a, b, rfl⟩ : ∃ a b, ls = [a, b] := ⟨_, _, Except.ok.inj (hls'.symm.trans hls)⟩
  refine ⟨g, a, b, hg, hcheck, hls', hall a (by simp) b (by simp) ?_⟩
  simpa using hnodup

end PolicyGraph

end Eligibility
