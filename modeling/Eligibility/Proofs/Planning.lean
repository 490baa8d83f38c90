import Mathlib.Data.List.Perm.Basic
import Eligibility.PolicyGraph.Compilation
import Eligibility.Proofs.Acceptance
/-!
# Plans of accepted rule sets

**Placement.**  A plan gives every top-level rule to one policy.  A rule is placed
in the policy of its tree; in the plan of an accepted rule set every rule is placed
once, so that its identifier tells where.

**Results.**
* `flatMap_filter_perm`: the groups of a list by keys that differ hold each item once.
* `isSound_of_checkedPlan`: the plan of an accepted rule set is sound.
* `eq_of_placed`: a placed rule is known by its identifier.
-/

namespace Eligibility

section Groups

variable {α κ : Type} [DecidableEq κ]

/-- The groups of a list by keys that differ hold each item once, if the key of each is there. -/
theorem flatMap_filter_perm {key : α → κ} {ks : List κ} (hks : ks.Nodup) {xs : List α}
    (hxs : ∀ x ∈ xs, key x ∈ ks) :
    (ks.flatMap fun k => xs.filter fun x => decide (key x = k)).Perm xs := by
  induction xs with
  | nil => simp
  | cons x r ih =>
      obtain ⟨hx, hr⟩ := List.forall_mem_cons.mp hxs
      -- only the group of the key of `x` grows, by `x` at its front
      obtain ⟨before, after, hsplit⟩ := List.append_of_mem hx
      have hne : ∀ k ∈ before ++ after, key x ≠ k := by
        intro k hk heq
        rw [hsplit, List.nodup_middle] at hks
        exact (List.nodup_cons.mp hks).1 (heq ▸ hk)
      have hsame : ∀ l : List κ, (∀ k ∈ l, key x ≠ k) →
          (l.flatMap fun k => (x :: r).filter fun y => decide (key y = k)) =
            l.flatMap fun k => r.filter fun y => decide (key y = k) := by
        intro l hl
        exact List.flatMap_congr fun k hk => by simp [hl k hk]
      have hbefore := hsame before fun k hk => hne k (List.mem_append_left _ hk)
      have hafter := hsame after fun k hk => hne k (List.mem_append_right _ hk)
      have ih := ih hr
      rw [hsplit] at ih ⊢
      rw [List.flatMap_append, List.flatMap_cons] at ih ⊢
      rw [hbefore, hafter, List.filter_cons_of_pos (by simp), List.cons_append]
      exact List.perm_middle.trans (ih.cons x)

end Groups

namespace Plan

/-- The rules of a plan with the policies whose trees they stand in. -/
def placed (p : Plan) : List (String × Rule) :=
  p.documents.flatMap fun d => (Rule.walkAll (p.rootsOf d.policy)).map fun r => (d.policy, r)

/-- A plan whose policies and rules differ and whose rules are sound and cite known clauses. -/
structure IsSound (p : Plan) : Prop where
  policies : (p.documents.map Document.policy).Nodup
  ids : (p.placed.map fun q => q.2.id).Nodup
  rules : ∀ q ∈ p.placed, q.2.head.IsSound q.2.children.length
  owners : ∀ q ∈ p.placed, (RuleSet.owner? p.documents q.2.head.clause).isSome = true

section Placement

variable {p : Plan}

theorem mem_placed {q : String × Rule} :
    q ∈ p.placed ↔ ∃ d ∈ p.documents, d.policy = q.1 ∧ ∃ t ∈ p.rootsOf q.1, q.2 ∈ t.walk := by
  obtain ⟨policy, r⟩ := q
  simp only [placed, List.mem_flatMap, List.mem_map, Prod.mk.injEq, Rule.mem_walkAll]
  constructor
  · rintro ⟨d, hd, r', ⟨t, ht, hr⟩, rfl, rfl⟩
    exact ⟨d, hd, rfl, t, ht, hr⟩
  · rintro ⟨d, hd, rfl, t, ht, hr⟩
    exact ⟨d, hd, r, ⟨t, ht, hr⟩, rfl, rfl⟩

/-- The top-level rules of a declared policy are placed in it. -/
theorem placed_root {d : Document} (hd : d ∈ p.documents) {r : Rule}
    (hr : r ∈ p.rootsOf d.policy) : (d.policy, r) ∈ p.placed :=
  mem_placed.mpr ⟨d, hd, rfl, r, hr, r.mem_walk_self⟩

/-- The rules below a placed rule are placed beside it. -/
theorem placed_child {policy : String} {r c : Rule} (hr : (policy, r) ∈ p.placed)
    (hc : c ∈ r.children) : (policy, c) ∈ p.placed := by
  obtain ⟨d, hd, he, t, ht, hrt⟩ := mem_placed.mp hr
  exact mem_placed.mpr ⟨d, hd, he, t, ht, Rule.mem_walk_of_mem_children hc t hrt⟩

/-- A placed rule is known by its identifier. -/
theorem eq_of_placed (hp : p.IsSound) {a b : String × Rule} (ha : a ∈ p.placed)
    (hb : b ∈ p.placed) (h : a.2.id = b.2.id) : a = b :=
  List.inj_on_of_nodup_map hp.ids ha hb h

/-- A declared policy is known by its identifier. -/
theorem document_eq (hp : p.IsSound) {d e : Document} (hd : d ∈ p.documents)
    (he : e ∈ p.documents) (h : d.policy = e.policy) : d = e :=
  List.inj_on_of_nodup_map hp.policies hd he h

theorem heads_eq_map_placed (p : Plan) : p.heads = p.placed.map fun q => q.2.head := by
  simp [heads, placed, List.map_flatMap, Rule.headsOf_eq_map_walkAll, Function.comp_def]

end Placement

end Plan

namespace RuleSet

section Plans

theorem declare_policies (owned : List String) (rs : List Rule) :
    (declare owned rs).map Document.policy = rs.map Rule.id := by
  induction rs generalizing owned with
  | nil => rfl
  | cons r rs ih => simp [declare, ih]

theorem owner?_mem {ds : List Document} {c q : String} (h : owner? ds c = some q) :
    ∃ d ∈ ds, d.policy = q ∧ c ∈ d.clauses.map Clause.id := by
  have hm : (c, q) ∈ ownedClauses ds := mem_of_lookup h
  simp only [ownedClauses, List.mem_flatMap, List.mem_map, Prod.mk.injEq] at hm
  obtain ⟨d, hd, cl, hcl, rfl, rfl⟩ := hm
  exact ⟨d, hd, rfl, List.mem_map_of_mem hcl⟩

theorem assign_spec {ds : List Document} {rs : List Rule} {roots : List (String × Rule)}
    (h : assign ds rs = .ok roots) :
    roots.map (·.2) = rs ∧ ∀ r ∈ roots, owner? ds r.2.head.clause = some r.1 := by
  induction rs generalizing roots with
  | nil => cases h; simp
  | cons r rs ih =>
      unfold assign at h
      split at h
      · cases h
      next q hq =>
      obtain ⟨rest, hrest, rfl⟩ := Attempt.map_eq_ok.mp h
      obtain ⟨hmap, hown⟩ := ih hrest
      refine ⟨by simp [hmap], ?_⟩
      rintro x (_ | ⟨_, hx⟩)
      · exact hq
      · exact hown x hx

/-- The documents and the top-level rules of a plan. -/
theorem plan_spec {s : RuleSet} {p : Plan} (h : s.plan = .ok p) :
    p.roots.map (·.2) = s.rules ∧
      if s.documents = [] then
        p.documents = declare [] s.rules ∧ ∀ r ∈ p.roots, r.1 = r.2.id
      else p.documents = s.documents ∧
        ∀ r ∈ p.roots, owner? s.documents r.2.head.clause = some r.1 := by
  unfold plan at h
  split at h
  · next he =>
    split at h
    · cases h
    · cases h
      have he := List.isEmpty_iff.mp he
      simp [he, Function.comp_def]
  · next he =>
    have he : s.documents ≠ [] := by simpa using he
    obtain ⟨roots, hroots, rfl⟩ := Attempt.map_eq_ok.mp h
    obtain ⟨hmap, hown⟩ := assign_spec hroots
    simp [he, hmap]
    exact fun a b hab => hown (a, b) hab

/-- The documents of a plan are those of the rule set, if it has any. -/
theorem documents_of_plan {s : RuleSet} {p : Plan} (h : s.plan = .ok p) (hs : s.documents ≠ []) :
    p.documents = s.documents := by
  have hmode := (plan_spec h).2
  rw [if_neg hs] at hmode
  exact hmode.1

theorem checkedPlan_spec {s : RuleSet} {p : Plan} (h : s.checkedPlan = .ok p) :
    s.plan = .ok p ∧ p.heads.findSome? (Plan.headFault? p.documents) = none := by
  unfold checkedPlan at h
  split at h
  · cases h
  next q hq =>
  split at h
  · cases h
  next hf => cases h; exact ⟨hq, hf⟩

theorem rules_ids_nodup {s : RuleSet} (hs : s.IsAccepted) : (s.rules.map Rule.id).Nodup := by
  have hsub : ∀ rs : List Rule,
      (rs.map Rule.id).Sublist ((Rule.headsOf rs).map Head.id) := by
    intro rs
    induction rs with
    | nil => simp
    | cons r rs ih =>
        obtain ⟨h, cs⟩ := r
        simp only [Rule.headsOf, Rule.heads, List.cons_append, List.map_cons, List.map_append]
        exact List.Sublist.cons_cons _ (ih.trans (List.sublist_append_right _ _))
  exact hs.ids.sublist (hsub s.rules)

/-- The roots of a plan go to the policies of its documents, which differ. -/
theorem plan_policies {s : RuleSet} {p : Plan} (hs : s.IsAccepted) (h : s.plan = .ok p) :
    (p.documents.map Document.policy).Nodup ∧
      ∀ r ∈ p.roots, r.1 ∈ p.documents.map Document.policy := by
  obtain ⟨hroots, hmode⟩ := plan_spec h
  split_ifs at hmode with he
  · obtain ⟨hdocs, hkeys⟩ := hmode
    rw [hdocs, declare_policies]
    refine ⟨rules_ids_nodup hs, fun r hr => ?_⟩
    rw [hkeys r hr, ← hroots]
    exact List.mem_map_of_mem (List.mem_map_of_mem hr)
  · obtain ⟨hdocs, hown⟩ := hmode
    rw [hdocs]
    refine ⟨hs.policies, fun r hr => ?_⟩
    obtain ⟨d, hd, he, -⟩ := owner?_mem (hown r hr)
    exact List.mem_map.mpr ⟨d, hd, he⟩

/-- The rules that a plan places are those of the rule set. -/
theorem placed_perm {s : RuleSet} {p : Plan} (hs : s.IsAccepted) (h : s.plan = .ok p) :
    (p.placed.map (·.2)).Perm (Rule.walkAll s.rules) := by
  obtain ⟨hnodup, hkeys⟩ := plan_policies hs h
  have hperm := (flatMap_filter_perm hnodup hkeys).map (·.2)
  rw [List.map_flatMap, (plan_spec h).1, List.flatMap_map] at hperm
  have hplaced : p.placed.map (·.2) =
      (p.documents.flatMap fun d => p.rootsOf d.policy).flatMap Rule.walk := by
    simp [Plan.placed, List.map_flatMap, Rule.walkAll_eq_flatMap, List.flatMap_assoc,
      Function.comp_def]
  rw [hplaced, Rule.walkAll_eq_flatMap]
  exact hperm.flatMap_right Rule.walk

/-- The plan of an accepted rule set is sound. -/
theorem isSound_of_checkedPlan {s : RuleSet} {p : Plan} (hs : s.IsAccepted)
    (h : s.checkedPlan = .ok p) : p.IsSound := by
  obtain ⟨hplan, hheads⟩ := checkedPlan_spec h
  have hperm := placed_perm hs hplan
  refine ⟨(plan_policies hs hplan).1, ?_, ?_, ?_⟩
  · have : (p.placed.map fun q => q.2.id).Perm ((Rule.walkAll s.rules).map Rule.id) := by
      simpa [Function.comp_def] using hperm.map Rule.id
    refine this.nodup_iff.mpr ?_
    have hids := hs.ids
    rw [heads, Rule.headsOf_eq_map_walkAll, List.map_map] at hids
    exact hids
  · intro q hq
    exact hs.sound q.2 (hperm.mem_iff.mp (List.mem_map_of_mem hq))
  · intro q hq
    rw [Plan.heads_eq_map_placed] at hheads
    have := List.findSome?_eq_none_iff.mp hheads q.2.head (List.mem_map_of_mem hq)
    unfold Plan.headFault? at this
    split_ifs at this with hc ho
    simpa [Option.isSome_iff_ne_none] using ho

end Plans

end RuleSet
end Eligibility
