import Eligibility.Proofs.Matchings
import Eligibility.Proofs.Overflows
import Eligibility.Proofs.Tenets
/-!
# When policies get verdicts

**Within reach.**  A declared policy gets a verdict exactly where no declared policy within its
reach contradicts itself, requires itself or compares a number with an integer that is out of
range.

**Matching rules.**  None of this depends on the order of rules, of operands or of documents,
nor on confidences: trees that match force commitments that do, and a comparison of one of them
stands beside the same commitments as the comparison of the other one that it matches.

**Results.**
* `IsDrawnFrom.exists_verdict_iff`: when a policy gets a verdict.
* `Rule.Matches.exists_scene`: the scenes of trees that match.
* `exists_verdict_of_matches`: graphs of rule sets that match give verdicts on the same policies.
-/

namespace Eligibility

namespace PolicyGraph

variable {cfg : Settings} {g : PolicyGraph} {p : Plan} {inputs : Inputs} {policy : String}

section Reach

/-- Whether the evaluation of a policy meets neither a contradiction, nor a circle, nor an
overflow at the policy itself. -/
structure IsClear (g : PolicyGraph) (p : Plan) (inputs : Inputs) (policy : String) : Prop where
  precheck : g.precheck (.str policy) = .ok ()
  circle : ¬ g.IsCircular policy
  overflow : ¬ p.Overflows inputs policy

/-- Where a policy is evaluated on a stack, every declared policy within its reach is clear, and
is not on the stack. -/
theorem IsDrawnFrom.isClear_of_evaluatePolicyTo (h : g.IsDrawnFrom cfg p) {start : String}
    {fuel : Nat} {stack : List String} {d : Document} (hd : d ∈ p.documents)
    (hstack : g.IsStackFrom start stack d.policy) {e : Evaluated}
    (he : g.evaluatePolicyTo inputs fuel (stack.map .str)
      (Plan.policyNode cfg d (p.rootsOf d.policy)) = .ok e) {t : String}
    (ht : Relation.ReflTransGen g.Requires d.policy t) :
    t ∉ stack ∧ (g.IsInternal t → g.IsClear p inputs t) := by
  induction fuel generalizing stack d e t with
  | zero => cases he
  | succ fuel ih =>
      have hover := (h.spec_evaluatePolicyTo hd he).2
      obtain ⟨hmem, hprecheck, own, required, -, hrequired, -⟩ := h.exists_parts hd he
      have hbelow : ∀ u, g.Requires d.policy u → ∀ t, Relation.ReflTransGen g.Requires u t →
          t ∉ stack ++ [d.policy] ∧ (g.IsInternal t → g.IsClear p inputs t) := by
        intro u hu t hut
        obtain ⟨d', hd', hpolicy, hmem'⟩ := h.requires_iff.mp hu
        obtain rfl := Plan.document_eq h.sound hd' hd hpolicy
        obtain ⟨x, -, -, ⟨d'', hd'', rfl, hx⟩ | ⟨hundeclared, -⟩⟩ :=
          Attempt.exists_right hrequired (Plan.mem_firstTexts.mpr ⟨hmem', by simp⟩)
        · exact ih hd'' (h.push_required hd hstack hmem hd'' hmem') hx hut
        · obtain rfl := h.eq_of_reaches hundeclared hut
          have hexternal : ¬ g.IsInternal t := fun hi => hundeclared (h.isInternal_iff.mp hi)
          refine ⟨fun hon => hexternal ?_, fun hi => absurd hi hexternal⟩
          exact hstack.internal t hon
      rcases Relation.ReflTransGen.cases_head ht with rfl | ⟨u, hu, hut⟩
      · refine ⟨hmem, fun _ => ⟨hprecheck, fun hcircular => ?_, hover _ .refl⟩⟩
        -- a way back to the policy would lead to a policy on the stack
        obtain ⟨u, hu, hback⟩ := Relation.TransGen.head'_iff.mp hcircular
        have hsub : g.RequiresInternal ≤ g.Requires := fun _ _ hxy => hxy.2.2
        exact (hbelow u hu.2.2 _ (Relation.ReflTransGen.mono hsub _ _ hback)).1 (by simp)
      · obtain ⟨hout, hclear⟩ := hbelow u hu t hut
        exact ⟨fun hon => hout (List.mem_append_left _ hon), hclear⟩

/-- A policy that is not declared does not contradict itself, if a declared one requires it over
others. -/
theorem IsDrawnFrom.precheck_of_reaches (h : g.IsDrawnFrom cfg p) (hpolicy : g.IsInternal policy)
    {t : String} (ht : Relation.ReflTransGen g.Requires policy t) (hundeclared : ¬ g.IsInternal t) :
    g.precheck (.str t) = .ok () := by
  rcases Relation.ReflTransGen.cases_tail ht with rfl | ⟨u, -, hu⟩
  · exact absurd hpolicy hundeclared
  · obtain ⟨d, hd, rfl, hmem⟩ := h.requires_iff.mp hu
    have hnot : t ∉ p.documents.map Document.policy := fun hi =>
      hundeclared (h.isInternal_iff.mpr hi)
    rcases h.node?_required hd hmem with ⟨d', hd', rfl, -⟩ | ⟨-, hn⟩
    · exact absurd (List.mem_map_of_mem hd') hnot
    · exact h.precheck_undeclared hnot (hasNode_of_node? hn)

/-- A policy gets a verdict exactly where it is declared and every declared policy within its
reach is clear. -/
theorem IsDrawnFrom.exists_verdict_iff (h : g.IsDrawnFrom cfg p) (settings : Settings) :
    (∃ v, g.verdict settings inputs (.str policy) = .ok v) ↔ g.IsInternal policy ∧
      ∀ t, Relation.ReflTransGen g.Requires policy t → g.IsInternal t →
        g.IsClear p inputs t := by
  constructor
  · rintro ⟨v, hv⟩
    obtain ⟨n, hn, hv⟩ := Attempt.bind_eq_ok.mp hv
    obtain ⟨e, he, -⟩ := Attempt.bind_eq_ok.mp hv
    obtain ⟨d, hd, rfl, rfl⟩ := h.exists_document hn
    have hpolicy := h.isInternal_iff.mpr (List.mem_map_of_mem hd)
    have hstack := isStackFrom_nil hpolicy
    exact ⟨hpolicy, fun t ht => (h.isClear_of_evaluatePolicyTo hd hstack he ht).2⟩
  · rintro ⟨hpolicy, hclear⟩
    have hcases : _ ∨ _ ∧ g.EndsAt _ policy (g.verdict settings inputs (.str policy)) :=
      h.verdict_cases settings
    rcases hcases with ⟨hundeclared, -⟩ | ⟨-, ⟨hv, -⟩ | ⟨f, -, hstop⟩⟩
    · exact absurd hpolicy hundeclared
    · exact hv
    · exfalso
      cases hstop with
      | @contradiction t _ _ _ _ reach check =>
          by_cases hi : g.IsInternal t
          · cases (hclear _ reach hi).precheck.symm.trans check
          · rw [h.precheck_of_reaches hpolicy reach hi] at check
            cases check
      | circle hcircle =>
          obtain ⟨t, ht, hcircular⟩ := hcircle.exists_isCircular
          exact (hclear t ht hcircular.isInternal).circle hcircular
      | overflow reach meets =>
          obtain ⟨d, hd, rfl, -⟩ := id meets
          exact (hclear _ reach (h.isInternal_iff.mpr (List.mem_map_of_mem hd))).overflow meets

end Reach

end PolicyGraph

section Matching

variable {K : Number → Number → Prop}

/-- Commitments of one truth value on comparisons that differ at most in their confidences. -/
structure Commitment.Varies (K : Number → Number → Prop) (a b : Commitment) : Prop where
  head : a.head.Varies K b.head
  positive : a.positive = b.positive

namespace Commitment

variable {a b a' b' : Commitment}

theorem Varies.constraint? (h : a.Varies K b) : a.constraint? = b.constraint? := by
  rw [Commitment.constraint?, Commitment.constraint?, h.head.value, h.head.operator,
    h.head.subject, h.positive]

theorem Varies.clashes (h : a.Varies K a') (h' : b.Varies K b') (hclash : a.Clashes b) :
    a'.Clashes b' := by
  obtain ⟨k, l, hk, hl, hno⟩ := hclash
  exact ⟨k, l, h.constraint? ▸ hk, h'.constraint? ▸ hl, hno⟩

/-- Whether each of some commitments has one among other ones that it matches. -/
def Among (K : Number → Number → Prop) (cs ds : List Commitment) : Prop :=
  ∀ c ∈ cs, ∃ d ∈ ds, c.Varies K d

theorem Among.append {cs ds cs' ds' : List Commitment} (h : Among K cs ds)
    (h' : Among K cs' ds') : Among K (cs ++ cs') (ds ++ ds') := by
  intro c hc
  rcases List.mem_append.mp hc with hc | hc
  · obtain ⟨d, hd, hcd⟩ := h c hc
    exact ⟨d, List.mem_append_left _ hd, hcd⟩
  · obtain ⟨d, hd, hcd⟩ := h' c hc
    exact ⟨d, List.mem_append_right _ hd, hcd⟩

end Commitment

/-- Scenes of comparisons that match, the second one beside at least the commitments of the first
one. -/
structure Scene.Within (K : Number → Number → Prop) (s u : Scene) : Prop where
  leaf : s.leaf.Varies K u.leaf
  context : Commitment.Among K s.context u.context

namespace Rule

variable {r t : Rule} {rs ts : List Rule}

theorem Matches.forced (h : r.Matches (Head.Varies K) t) (positive : Bool) :
    Matched (Commitment.Varies K) (r.forced positive) (t.forced positive) := by
  induction r using Rule.induction generalizing t positive with
  | node k cs ih =>
      rw [forced_eq, forced_eq positive t, h.head.operator]
      split_ifs
      · rw [forcedAll_eq_flatMap, forcedAll_eq_flatMap]
        exact h.children.flatMap fun c hc _ _ hcd => ih c hc hcd _
      · exact .nil
      · exact .cons ⟨h.head, rfl⟩ .nil

theorem Matches.among_forcedAll {rs' ts' : List Rule}
    (h : Matched (Matches (Head.Varies K)) (rs ++ rs') (ts ++ ts')) (positive : Bool) :
    Commitment.Among K (forcedAll positive rs ++ forcedAll positive rs')
      (forcedAll positive ts ++ forcedAll positive ts') := by
  simp only [forcedAll_eq_flatMap, ← List.flatMap_append]
  exact fun c hc => (h.flatMap fun _ _ _ _ hrt => hrt.forced positive).exists_right hc

/-- Each scene of a tree has its counterpart in a tree that matches. -/
theorem Matches.exists_scene (h : r.Matches (Head.Varies K) t) {context context' : List Commitment}
    (hcontext : Commitment.Among K context context') {positive : Bool} (trail trail' : List String)
    {s : Scene} (hs : s ∈ r.scenes trail context positive) :
    ∃ u ∈ t.scenes trail' context' positive, Scene.Within K s u := by
  induction r using Rule.induction generalizing t context context' positive trail trail' with
  | node k cs ih =>
      rw [scenes_eq, children_node] at hs
      rw [scenes_eq, h.head.operator]
      have hchildren := h.children
      rw [children_node] at hchildren
      split_ifs at hs ⊢
      · obtain ⟨pre, c, post, rfl, hs⟩ := mem_scenesBeside.mp hs
        obtain ⟨pre', d, post', hsplit, hcd, hothers⟩ := hchildren.exists_split
        have hbeside := fun b => hcontext.append (Matches.among_forcedAll hothers b)
        obtain ⟨u, hu, hsu⟩ := ih c (by simp) hcd (hbeside _) _ (trail' ++ [t.id]) hs
        exact ⟨u, mem_scenesBeside.mpr ⟨pre', d, post', hsplit, hu⟩, hsu⟩
      · rw [scenesApart_eq_flatMap] at hs ⊢
        obtain ⟨c, hc, hs⟩ := List.mem_flatMap.mp hs
        obtain ⟨d, hd, hcd⟩ := hchildren.exists_right hc
        obtain ⟨u, hu, hsu⟩ := ih c hc hcd hcontext _ (trail' ++ [t.id]) hs
        exact ⟨u, List.mem_flatMap.mpr ⟨d, hd, hu⟩, hsu⟩
      · obtain rfl := List.mem_singleton.mp hs
        exact ⟨_, List.mem_singleton_self _, ⟨⟨h.head, rfl⟩, hcontext⟩⟩

theorem Matches.overflows {inputs : Inputs} (h : r.Matches (Head.Varies K) t)
    (hr : r.Overflows inputs) : t.Overflows inputs := by
  obtain ⟨k, hk, x, n, hvalue, hoperator, hgiven, hrange⟩ := hr
  obtain ⟨hk, hcomparison⟩ := List.mem_filter.mp hk
  rw [heads_eq_map_walk] at hk
  obtain ⟨l, hl, hkl⟩ := (h.walk.map fun _ _ hab => hab.head).exists_right hk
  refine ⟨l, List.mem_filter.mpr ⟨heads_eq_map_walk t ▸ hl, hkl.operator ▸ hcomparison⟩, x, n, ?_⟩
  rw [hkl.value, hkl.operator, hkl.subject]
  exact ⟨hvalue, hoperator, hgiven, hrange⟩

end Rule

namespace Plan.Matches

variable {p q : Plan}

theorem symm (h : p.Matches K q) : q.Matches (fun y x => K x y) p where
  documents := h.documents.symm.imp fun e _ d _ ⟨hpolicy, hrequires, hclauses⟩ =>
    ⟨hpolicy.symm, hrequires.symm, hclauses.imp Eq.symm fun ⟨hnone, hone⟩ =>
      ⟨hrequires ▸ hnone, by rw [← (h.roots e.policy).length_eq, ← hpolicy, hone]⟩⟩
  roots a := (h.roots a).symm.imp fun _ _ _ _ hrt =>
    hrt.symm.imp fun _ _ _ hk => hk.symm

theorem overflows (h : p.Matches K q) {inputs : Inputs} {a : String}
    (ha : p.Overflows inputs a) : q.Overflows inputs a := by
  obtain ⟨d, hd, rfl, r, hr, hover⟩ := ha
  obtain ⟨e, he, hpolicy, -⟩ := h.documents.exists_right hd
  obtain ⟨t, ht, hrt⟩ := (h.roots d.policy).exists_right hr
  exact ⟨e, he, hpolicy.symm, t, ht, hrt.overflows hover⟩

theorem exists_scene (h : p.Matches K q) {a : String} {s : Scene} (hs : s ∈ p.scenesOf a) :
    ∃ u ∈ q.scenesOf a, Scene.Within K s u := by
  obtain ⟨pre, r, post, hsplit, hs⟩ := Rule.mem_scenesBeside.mp hs
  obtain ⟨pre', t, post', hsplit', hrt, hothers⟩ := (hsplit ▸ h.roots a).exists_split
  have hbeside := Rule.Matches.among_forcedAll hothers true
  obtain ⟨u, hu, hsu⟩ := hrt.exists_scene hbeside [] [] hs
  exact ⟨u, Rule.mem_scenesBeside.mpr ⟨pre', t, post', hsplit', hu⟩, hsu⟩

end Plan.Matches

namespace PolicyGraph

variable {cfg : Settings} {g h : PolicyGraph} {p q : Plan} {inputs : Inputs} {a b : String}

section Verdicts

variable (hg : g.IsDrawnFrom cfg p) (hh : h.IsDrawnFrom cfg q) (hpq : p.Matches K q)

include hg hh hpq

theorem isInternal_of_matches (ha : g.IsInternal a) : h.IsInternal a := by
  obtain ⟨d, hd, rfl⟩ := List.mem_map.mp (hg.isInternal_iff.mp ha)
  obtain ⟨e, he, hpolicy, -⟩ := hpq.documents.exists_right hd
  exact hh.isInternal_iff.mpr (hpolicy ▸ List.mem_map_of_mem he)

theorem requires_of_matches (hab : g.Requires a b) : h.Requires a b := by
  obtain ⟨d, hd, rfl, hb⟩ := hg.requires_iff.mp hab
  obtain ⟨e, he, hpolicy, hrequires, -⟩ := hpq.documents.exists_right hd
  exact hh.requires_iff.mpr ⟨e, he, hpolicy.symm, hrequires ▸ hb⟩

theorem precheck_of_matches (ha : h.IsInternal a) (hok : g.precheck (.str a) = .ok ()) :
    h.precheck (.str a) = .ok () := by
  obtain ⟨e, he, rfl⟩ := List.mem_map.mp (hh.isInternal_iff.mp ha)
  obtain ⟨d, hd, hpolicy, -⟩ := hpq.documents.exists_left he
  rcases hh.precheck_cases he with ⟨hok', -⟩ | ⟨s, hs, c, hc, hclash, -⟩
  · exact hok'
  · obtain ⟨u, hu, hsu⟩ := hpq.symm.exists_scene hs
    obtain ⟨b, hb, hcb⟩ := hsu.context c hc
    rw [← hpolicy] at hu hok
    rcases hg.precheck_cases hd with ⟨-, hno⟩ | ⟨_, -, _, -, -, _, _, _, -, -, -, herror⟩
    · exact absurd (hsu.leaf.clashes hcb hclash) (hno u hu b hb)
    · cases hok.symm.trans herror

theorem exists_verdict_imp_of_matches {settings : Settings}
    (hv : ∃ v, g.verdict settings inputs (.str a) = .ok v) :
    ∃ w, h.verdict settings inputs (.str a) = .ok w := by
  obtain ⟨ha, hclear⟩ := (hg.exists_verdict_iff settings).mp hv
  have hback : h.Requires ≤ g.Requires := fun _ _ hxy => requires_of_matches hh hg hpq.symm hxy
  refine (hh.exists_verdict_iff settings).mpr
    ⟨isInternal_of_matches hg hh hpq ha, fun t ht hi => ?_⟩
  have hclear := hclear t (Relation.ReflTransGen.mono hback _ _ ht)
    (isInternal_of_matches hh hg hpq.symm hi)
  refine ⟨precheck_of_matches hg hh hpq hi hclear.precheck, fun hcircular => ?_, fun hover => ?_⟩
  · refine hclear.circle (Relation.TransGen.mono (fun x y hxy => ?_) _ _ hcircular)
    exact ⟨isInternal_of_matches hh hg hpq.symm hxy.1,
      isInternal_of_matches hh hg hpq.symm hxy.2.1, hback _ _ hxy.2.2⟩
  · exact hclear.overflow (hpq.symm.overflows hover)

/-- Graphs drawn from plans that match give verdicts on the same policies. -/
theorem exists_verdict_of_matches (settings : Settings) :
    (∃ v, g.verdict settings inputs (.str a) = .ok v) ↔
      ∃ w, h.verdict settings inputs (.str a) = .ok w :=
  ⟨exists_verdict_imp_of_matches hg hh hpq, exists_verdict_imp_of_matches hh hg hpq.symm⟩

end Verdicts

end PolicyGraph

end Matching

end Eligibility
