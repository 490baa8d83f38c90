import Mathlib.Data.List.Pairwise
import Eligibility.Proofs.ComposedTrees
import Eligibility.Proofs.Legibility
/-!
# Nodes that graphs have in common

**Agreement.**  Declared policies, clauses, thresholds and entities that agree with one node agree
with each other.  Nothing asks whether a node agrees with itself: what is no number may not.

**Order.**  Composition takes in one node after another, and compares each one with what stands for
those before it.  It succeeds where any two nodes admit each other, which their order does not
decide.

**Results.**
* `Node.IsCommon.alike_symm`, `Node.IsCommon.alike_euclid`: agreement of what graphs have in common.
* `pairwise_of_absorbAll`, `exists_absorbAll`: when nodes can be taken in.
* `exists_compose_of_perm`: graphs can be composed in any order, unless they share rules.
-/

namespace Eligibility

section Numbers

theorem Number.alike_symm {x y : Number} (h : x.alike y = true) : y.alike x = true := by
  cases x <;> cases y <;> grind [alike, same, value?]

theorem Number.alike_euclid {x y z : Number} (h : x.alike y = true) (h' : x.alike z = true) :
    y.alike z = true := by
  cases x <;> cases y <;> cases z <;> simp_all [alike, same, value?]

theorem Json.float?_alike_symm {x y : Option Number}
    (h : (float? x).alike (float? y) = true) : (float? y).alike (float? x) = true := by
  cases x <;> cases y <;> simp_all [float?, alike, alikeScalar, sameScalar, Number.alike_symm]

theorem Json.float?_alike_euclid {x y z : Option Number} (h : (float? x).alike (float? y) = true)
    (h' : (float? x).alike (float? z) = true) : (float? y).alike (float? z) = true := by
  cases x <;> cases y <;> cases z <;> simp_all [float?, alike, alikeScalar, sameScalar]
  exact Number.alike_euclid h h'

theorem Json.strs_alike {xs ys : List String} :
    (strs xs).alike (strs ys) = true ↔ xs = ys := by
  have hitems : ∀ xs ys : List String,
      alikeItems (xs.map .str) (ys.map .str) = true ↔ xs = ys := by
    intro xs
    induction xs with
    | nil => intro ys; cases ys <;> simp [alikeItems]
    | cons x xs ih =>
        intro ys
        cases ys with
        | nil => simp [alikeItems]
        | cons y ys => simp [alikeItems, ih]
  simpa [strs, alike] using hitems xs ys

end Numbers

namespace Plan

variable {cfg cfg' : Settings} {d d' : Document} {rs rs' : List Rule} {a b : String}
  {c c' : Clause} {h h' : Head} {x x' : Number}

/-- Declared policies that agree are the same. -/
theorem policyNode_eq_of_alike (ha : (policyNode cfg d rs).alike (policyNode cfg' d' rs') = true) :
    policyNode cfg d rs = policyNode cfg' d' rs' := by
  simp [Node.alike, policyNode, Entries.alike, Entries.mapValues, Entries.ofFields,
    Property.toJson, Entries.valueOf?, Json.strs_alike] at ha
  obtain ⟨⟨hpolicy, htitle, hentity, -, hroots⟩, -⟩ := ha
  unfold policyNode
  rw [hpolicy, htitle, hentity, hroots]

theorem clauseNode_alike : (clauseNode a c).alike (clauseNode b c') = true ↔ c.id = c'.id ∧
    a = b ∧ c.text = c'.text ∧
      (Json.float? c.readability).alike (Json.float? c'.readability) = true ∧
      c.ambiguous = c'.ambiguous := by
  simp [Node.alike, clauseNode, Entries.alike, Entries.mapValues, Entries.ofFields,
    Property.toJson, Entries.valueOf?, Json.alike, Json.alikeScalar, Json.sameScalar, Number.one]

theorem thresholdNode_alike : (thresholdNode h x).alike (thresholdNode h' x') = true ↔
    Node.thresholdKey h.subject h.operator x = Node.thresholdKey h'.subject h'.operator x' ∧
      h.subject = h'.subject ∧ h.operator.name = h'.operator.name ∧ x.alike x' = true := by
  have hvalue : (Operand.number x).toJson.alike (Operand.number x').toJson = x.alike x' := by
    simp [Operand.toJson, Operand.bare, Operand.kind, Json.alike, Json.alikeFields, Json.lookup,
      Json.alikeScalar, Json.sameScalar]
  simp [Node.alike, thresholdNode, Entries.alike, Entries.mapValues, Entries.ofFields,
    Property.toJson, Entries.valueOf?, hvalue, Number.one]

theorem entityNode_alike : (entityNode a).alike (entityNode b) = true ↔ a = b := by
  simp [Node.alike, entityNode, Entries.alike, Entries.mapValues, Entries.ofFields,
    Property.toJson, Entries.valueOf?, Number.one, Node.entityKey]

end Plan

section Common

/-- Nodes that several graphs can have though they share no rules. -/
inductive Node.IsCommon : Node → Prop
  | policy (cfg : Settings) (d : Document) (rs : List Rule) : IsCommon (Plan.policyNode cfg d rs)
  | clause (policy : String) (c : Clause) : IsCommon (Plan.clauseNode policy c)
  | threshold (h : Head) (x : Number) : IsCommon (Plan.thresholdNode h x)
  | entity (name : String) : IsCommon (Plan.entityNode name)

variable {l m n : Node}

/-- What agrees with a common node is agreed with by it. -/
theorem Node.IsCommon.alike_symm (hm : m.IsCommon) (hn : n.IsCommon) (h : m.alike n = true) :
    n.alike m = true := by
  have hkind := Node.alike_kind h
  cases hm <;> cases hn <;> cases hkind
  case policy.policy =>
    have heq := Plan.policyNode_eq_of_alike h
    rwa [← heq] at h ⊢
  case clause.clause =>
    obtain ⟨hid, hpolicy, htext, hreadability, hambiguous⟩ := Plan.clauseNode_alike.mp h
    exact Plan.clauseNode_alike.mpr ⟨hid.symm, hpolicy.symm, htext.symm,
      Json.float?_alike_symm hreadability, hambiguous.symm⟩
  case threshold.threshold =>
    obtain ⟨hkey, hsubject, hoperator, hvalue⟩ := Plan.thresholdNode_alike.mp h
    exact Plan.thresholdNode_alike.mpr ⟨hkey.symm, hsubject.symm, hoperator.symm,
      Number.alike_symm hvalue⟩
  case entity.entity => exact Plan.entityNode_alike.mpr (Plan.entityNode_alike.mp h).symm

/-- Common nodes that agree with one node agree with each other. -/
theorem Node.IsCommon.alike_euclid (hl : l.IsCommon) (hm : m.IsCommon) (hn : n.IsCommon)
    (h : l.alike m = true) (h' : l.alike n = true) : m.alike n = true := by
  have hkind := Node.alike_kind h
  have hkind' := Node.alike_kind h'
  cases hl <;> cases hm <;> cases hkind <;> cases hn <;> cases hkind'
  case policy.policy.refl.policy.refl =>
    rwa [← Plan.policyNode_eq_of_alike h]
  case clause.clause.refl.clause.refl =>
    obtain ⟨hid, hpolicy, htext, hreadability, hambiguous⟩ := Plan.clauseNode_alike.mp h
    obtain ⟨hid', hpolicy', htext', hreadability', hambiguous'⟩ := Plan.clauseNode_alike.mp h'
    exact Plan.clauseNode_alike.mpr ⟨hid.symm.trans hid', hpolicy.symm.trans hpolicy',
      htext.symm.trans htext', Json.float?_alike_euclid hreadability hreadability',
      hambiguous.symm.trans hambiguous'⟩
  case threshold.threshold.refl.threshold.refl =>
    obtain ⟨hkey, hsubject, hoperator, hvalue⟩ := Plan.thresholdNode_alike.mp h
    obtain ⟨hkey', hsubject', hoperator', hvalue'⟩ := Plan.thresholdNode_alike.mp h'
    exact Plan.thresholdNode_alike.mpr ⟨hkey.symm.trans hkey', hsubject.symm.trans hsubject',
      hoperator.symm.trans hoperator', Number.alike_euclid hvalue hvalue'⟩
  case entity.entity.refl.entity.refl =>
    exact Plan.entityNode_alike.mpr
      ((Plan.entityNode_alike.mp h).symm.trans (Plan.entityNode_alike.mp h'))

end Common

section Absorption

/-- Whether two nodes of one identifier agree, unless one of them only stands for a policy. -/
def Node.Admits (m n : Node) : Prop :=
  m.id = n.id → m.isExternal = false → n.isExternal = false → m.alike n = true

/-- Nodes among which those that agree with one node of their identifier agree with each other. -/
structure Node.AreLevel (ns : List Node) : Prop where
  symm : ∀ m ∈ ns, ∀ n ∈ ns, m.Admits n → n.Admits m
  euclid : ∀ l ∈ ns, ∀ m ∈ ns, ∀ n ∈ ns, l.id = m.id → l.id = n.id → l.isExternal = false →
    m.isExternal = false → n.isExternal = false → l.alike m = true → l.alike n = true →
      m.alike n = true

theorem Node.AreLevel.mono {ms ns : List Node} (h : Node.AreLevel ns) (hsub : ms ⊆ ns) :
    Node.AreLevel ms where
  symm := fun m hm n hn => h.symm m (hsub hm) n (hsub hn)
  euclid := fun l hl m hm n hn => h.euclid l (hsub hl) m (hsub hm) n (hsub hn)

theorem Node.AreLevel.pairwise_of_perm {ms ns : List Node} (h : Node.AreLevel ns)
    (hperm : ms.Perm ns) (hpair : ns.Pairwise Node.Admits) : ms.Pairwise Node.Admits := by
  rw [List.Pairwise.and_mem] at hpair
  refine ((hperm.pairwise_iff fun {m n} hmn => ?_).mpr hpair).imp fun hmn => hmn.2.2
  obtain ⟨hm, hn, hadmits⟩ := hmn
  exact ⟨hn, hm, h.symm m hm n hn hadmits⟩

namespace PolicyGraph

variable {position : Nat} {n : Node} {k : String} {acc acc' ns ms : List Node}

/-- A node that is taken in agrees with the node of its identifier. -/
theorem admits_of_absorb (hk : n.id = .str k) (hacc : (acc.map Node.id).Nodup)
    (h : absorb position n acc = .ok acc') : ∀ m ∈ acc, m.Admits n := by
  induction acc generalizing acc' with
  | nil => simp
  | cons m r ih =>
      intro x hx hid hxe hne
      rw [List.map_cons, List.nodup_cons] at hacc
      unfold absorb at h
      split_ifs at h with halike hreplace hkeep
      · obtain ⟨r', hr', -⟩ := Attempt.map_eq_ok.mp h
        rcases List.mem_cons.mp hx with rfl | hx
        · rw [hid, hk, Json.alike_str] at halike
          simp at halike
        · exact ih hacc.2 hr' x hx hid hxe hne
      all_goals
        -- no other node has this identifier
        obtain rfl : x = m := by
          rcases List.mem_cons.mp hx with hx | hx
          · exact hx
          · rw [hk] at halike
            have hm : m.id = .str k := Json.alike_str_right.mp (by simpa using halike)
            rw [hm, ← hk, ← hid] at hacc
            exact absurd (List.mem_map_of_mem hx) hacc.1
      · simp [hxe] at hreplace
      · simpa [hne] using hkeep

/-- A node that every node of its identifier agrees with is taken in. -/
theorem exists_absorb (hk : n.id = .str k) (h : ∀ m ∈ acc, m.Admits n) :
    ∃ acc', absorb position n acc = .ok acc' := by
  induction acc with
  | nil => exact ⟨[n], rfl⟩
  | cons m r ih =>
      obtain ⟨r', hr'⟩ := ih fun x hx => h x (List.mem_cons_of_mem _ hx)
      unfold absorb
      split_ifs with halike hreplace hkeep
      · exact ⟨m :: r', by rw [hr', Attempt.map_ok]⟩
      · exact ⟨_, rfl⟩
      · exact ⟨_, rfl⟩
      · rw [hk] at halike
        have hm : m.id = .str k := Json.alike_str_right.mp (by simpa using halike)
        simp only [Bool.or_eq_true, not_or, Bool.not_eq_true] at hkeep
        have hme : m.isExternal = false := by simpa [hkeep.1] using hreplace
        have hmn := h m (by simp) (hm.trans hk.symm) hme hkeep.1
        rw [hkeep.2] at hmn
        cases hmn

/-- Nodes that are taken in admit each other, and those that were taken in before admit them. -/
theorem pairwise_of_absorbAll {done : List Node} (hlevel : Node.AreLevel (done ++ ns))
    (hids : ∀ n ∈ ns, ∃ k, n.id = .str k) (hdone : Absorbs [] done acc)
    (h : absorbAll position acc ns = .ok acc') :
    (∀ x ∈ done, ∀ n ∈ ns, x.Admits n) ∧ ns.Pairwise Node.Admits := by
  induction ns generalizing acc done with
  | nil => exact ⟨by simp, .nil⟩
  | cons n r ih =>
      unfold absorbAll at h
      split at h
      · cases h
      next acc1 h1 =>
      obtain ⟨k, hk⟩ := hids n (by simp)
      have hadmits := admits_of_absorb hk (hdone.nodup (by simp)) h1
      have hbefore : ∀ x ∈ done, x.Admits n := by
        intro x hx hid hxe hne
        obtain ⟨m, hm, hstands⟩ := hdone.stands x hx
        obtain ⟨hme, heq⟩ := hstands.agrees hxe
        have hmn := hadmits m hm (hstands.id.trans hid) hme hne
        rcases heq with rfl | halike
        · exact hmn
        · have hmem : m ∈ done := (hdone.origin m hm).resolve_left (by simp)
          exact hlevel.euclid m (by simp [hmem]) x (by simp [hx]) n (by simp) hstands.id
            (hstands.id.trans hid) hme hxe hne halike hmn
      obtain ⟨hall, hpair⟩ := ih (by simpa using hlevel)
        (fun x hx => hids x (List.mem_cons_of_mem _ hx)) (hdone.trans (absorbs_of_absorb hk h1)) h
      refine ⟨fun x hx y hy => ?_, List.pairwise_cons.mpr ⟨hall n (by simp), hpair⟩⟩
      rcases List.mem_cons.mp hy with rfl | hy
      · exact hbefore x hx
      · exact hall x (List.mem_append_left _ hx) y hy

/-- Nodes that admit each other are taken in. -/
theorem exists_absorbAll (hids : ∀ n ∈ ns, ∃ k, n.id = .str k) (hpair : ns.Pairwise Node.Admits)
    (hacc : ∀ m ∈ acc, ∀ n ∈ ns, m.Admits n) : ∃ acc', absorbAll position acc ns = .ok acc' := by
  induction ns generalizing acc with
  | nil => exact ⟨acc, rfl⟩
  | cons n r ih =>
      obtain ⟨k, hk⟩ := hids n (by simp)
      obtain ⟨acc1, h1⟩ : ∃ acc1, absorb position n acc = .ok acc1 :=
        exists_absorb hk fun m hm => hacc m hm n (by simp)
      obtain ⟨hn, hr⟩ := List.pairwise_cons.mp hpair
      have hacc1 : ∀ m ∈ acc1, ∀ x ∈ r, m.Admits x := by
        intro m hm x hx
        rcases (absorbs_of_absorb hk h1).origin m hm with hm | hm
        · exact hacc m hm x (List.mem_cons_of_mem _ hx)
        · rw [List.mem_singleton.mp hm]
          exact hn x hx
      obtain ⟨acc', h'⟩ := ih (fun x hx => hids x (List.mem_cons_of_mem _ hx)) hr hacc1
      exact ⟨acc', by rw [absorbAll, h1]; exact h'⟩

variable {gs : List PolicyGraph}

theorem pairwise_of_composeNodes {done : List Node}
    (hlevel : Node.AreLevel (done ++ gs.flatMap PolicyGraph.nodes))
    (hids : ∀ g ∈ gs, ∀ n ∈ g.nodes, ∃ k, n.id = .str k) (hdone : Absorbs [] done acc)
    (h : composeNodes position acc gs = .ok acc') :
    (∀ x ∈ done, ∀ n ∈ gs.flatMap PolicyGraph.nodes, x.Admits n) ∧
      (gs.flatMap PolicyGraph.nodes).Pairwise Node.Admits := by
  induction gs generalizing acc done position with
  | nil => exact ⟨by simp, .nil⟩
  | cons g r ih =>
      unfold composeNodes at h
      split at h
      · cases h
      next acc1 h1 =>
      rw [List.flatMap_cons] at hlevel ⊢
      have hg := hids g (by simp)
      obtain ⟨hbefore, hpair⟩ := pairwise_of_absorbAll
        (hlevel.mono (by simp)) hg hdone h1
      obtain ⟨hall, hpairs⟩ := ih (by simpa using hlevel)
        (fun x hx => hids x (List.mem_cons_of_mem _ hx)) (hdone.trans (absorbs_of_absorbAll hg h1)) h
      refine ⟨fun x hx n hn => ?_, List.pairwise_append.mpr ⟨hpair, hpairs, fun x hx => ?_⟩⟩
      · rcases List.mem_append.mp hn with hn | hn
        · exact hbefore x hx n hn
        · exact hall x (List.mem_append_left _ hx) n hn
      · exact hall x (List.mem_append_right _ hx)

theorem exists_composeNodes (hids : ∀ g ∈ gs, ∀ n ∈ g.nodes, ∃ k, n.id = .str k)
    (hpair : (gs.flatMap PolicyGraph.nodes).Pairwise Node.Admits)
    (hacc : ∀ m ∈ acc, ∀ n ∈ gs.flatMap PolicyGraph.nodes, m.Admits n) :
    ∃ acc', composeNodes position acc gs = .ok acc' := by
  induction gs generalizing acc position with
  | nil => exact ⟨acc, rfl⟩
  | cons g r ih =>
      rw [List.flatMap_cons] at hpair hacc
      obtain ⟨hg, hr, hgr⟩ := List.pairwise_append.mp hpair
      obtain ⟨acc1, h1⟩ : ∃ acc1, absorbAll position acc g.nodes = .ok acc1 :=
        exists_absorbAll (hids g (by simp)) hg fun m hm n hn =>
          hacc m hm n (List.mem_append_left _ hn)
      have hacc1 : ∀ m ∈ acc1, ∀ n ∈ r.flatMap PolicyGraph.nodes, m.Admits n := by
        intro m hm n hn
        rcases (absorbs_of_absorbAll (hids g (by simp)) h1).origin m hm with hm | hm
        · exact hacc m hm n (List.mem_append_right _ hn)
        · exact hgr m hm n hn
      obtain ⟨acc', h'⟩ : ∃ acc', composeNodes (position + 1) acc1 r = .ok acc' :=
        ih (fun x hx => hids x (List.mem_cons_of_mem _ hx)) hr hacc1
      exact ⟨acc', by rw [composeNodes, h1]; exact h'⟩

end PolicyGraph

end Absorption

section Rules

namespace PolicyGraph

/-- Whether no rule of one graph has the identifier of a rule of the other one. -/
def SharesNoRule (g h : PolicyGraph) : Prop :=
  ∀ m ∈ g.nodes, ∀ n ∈ h.nodes, m.kind = .condition → n.kind = .condition → m.rule ≠ n.rule

instance : Std.Symm SharesNoRule :=
  ⟨fun _ _ hgh m hm n hn hmkind hnkind heq => hgh n hn m hm hnkind hmkind heq.symm⟩

variable {cfg : Settings} {p : Plan} {g : PolicyGraph} {gs gs' : List PolicyGraph} {m n : Node}

/-- Graphs that share no rules place rules of different identifiers. -/
theorem SharesNoRule.id_ne {g' : PolicyGraph} {cfg' : Settings} {p' : Plan}
    (h : g.SharesNoRule g') (hp : g.IsDrawnFrom cfg p) (hp' : g'.IsDrawnFrom cfg' p')
    {q q' : String × Rule} (hq : q ∈ p.placed) (hq' : q' ∈ p'.placed) : q.2.id ≠ q'.2.id := by
  intro hid
  refine h _ (node?_spec (hp.node?_condition hq)).1 _ (node?_spec (hp'.node?_condition hq')).1
    rfl rfl ?_
  rw [Plan.conditionNode_rule, Plan.conditionNode_rule]
  exact congrArg Json.str hid

/-- What stands in a compiled graph for itself is common, unless it is a rule. -/
theorem IsDrawnFrom.isCommon_or_condition (h : g.IsDrawnFrom cfg p) (hn : n ∈ g.nodes)
    (hexternal : n.isExternal = false) : n.IsCommon ∨ n.kind = .condition := by
  rcases Plan.mem_layout.mp (h.mem_nodes hn) with
    ⟨d, -, rfl⟩ | ⟨d, -, c, -, rfl⟩ | ⟨d, -, t, -, rfl⟩ | ⟨q, -, rfl | ho⟩
  · exact .inl (.policy ..)
  · exact .inl (.clause ..)
  · simp at hexternal
  · exact .inr rfl
  · rcases Plan.mem_operandNodes ho with ⟨x, -, rfl⟩ | ⟨s, rfl⟩
    · exact .inl (.threshold ..)
    · exact .inl (.entity ..)

/-- Rules of one identifier are one node, where graphs share no rules. -/
theorem eq_of_rule (hgs : ∀ g ∈ gs, ∃ cfg p, g.IsDrawnFrom cfg p)
    (hrules : gs.Pairwise SharesNoRule) (hm : m ∈ gs.flatMap PolicyGraph.nodes)
    (hn : n ∈ gs.flatMap PolicyGraph.nodes) (hmkind : m.kind = .condition)
    (hnkind : n.kind = .condition) (hid : m.id = n.id) : m = n := by
  obtain ⟨g, hg, hm⟩ := List.mem_flatMap.mp hm
  obtain ⟨h, hh, hn⟩ := List.mem_flatMap.mp hn
  obtain ⟨cfg, p, hp⟩ := hgs g hg
  obtain ⟨cfg', p', hp'⟩ := hgs h hh
  by_cases hgh : g = h
  · exact hp.isLegible.eq_of_id hm (hgh ▸ hn) hid
  · obtain ⟨q, hq, rfl⟩ := hp.eq_of_condition hm hmkind
    obtain ⟨q', hq', rfl⟩ := hp'.eq_of_condition hn hnkind
    exact absurd (Node.conditionKey_inj.mp (Json.str.inj hid))
      ((hrules.forall hg hh hgh).id_ne hp hp' hq hq')

/-- Agreement carries over between nodes of compiled graphs that share no rules. -/
theorem areLevel_of_sharesNoRule (hgs : ∀ g ∈ gs, ∃ cfg p, g.IsDrawnFrom cfg p)
    (hrules : gs.Pairwise SharesNoRule) : Node.AreLevel (gs.flatMap PolicyGraph.nodes) := by
  have hof : ∀ n ∈ gs.flatMap PolicyGraph.nodes, n.isExternal = false →
      n.IsCommon ∨ n.kind = .condition := by
    intro n hn hexternal
    obtain ⟨g, hg, hn⟩ := List.mem_flatMap.mp hn
    obtain ⟨cfg, p, hp⟩ := hgs g hg
    exact hp.isCommon_or_condition hn hexternal
  have heq : ∀ {m n : Node}, m ∈ gs.flatMap PolicyGraph.nodes → n ∈ gs.flatMap PolicyGraph.nodes →
      m.id = n.id → m.alike n = true → m.kind = .condition ∨ n.kind = .condition → m = n := by
    intro m n hm hn hid halike hkind
    have hsame := Node.alike_kind halike
    rcases hkind with hkind | hkind
    · exact eq_of_rule hgs hrules hm hn hkind (hsame.symm.trans hkind) hid
    · exact eq_of_rule hgs hrules hm hn (hsame.trans hkind) hkind hid
  refine ⟨fun m hm n hn hadmits hid hne hme => ?_,
    fun l hl m hm n hn hid hid' hle hme hne halike halike' => ?_⟩
  · have halike := hadmits hid.symm hme hne
    rcases hof m hm hme with hmof | hmkind
    · rcases hof n hn hne with hnof | hnkind
      · exact hmof.alike_symm hnof halike
      · have hmn := heq hm hn hid.symm halike (.inr hnkind)
        rwa [← hmn] at halike ⊢
    · have hmn := heq hm hn hid.symm halike (.inl hmkind)
      rwa [← hmn] at halike ⊢
  · by_cases hkind : l.kind = .condition
    · rw [← heq hl hm hid halike (.inl hkind)]
      exact halike'
    · have hcommon : ∀ n ∈ gs.flatMap PolicyGraph.nodes, n.isExternal = false →
          n.kind = l.kind → n.IsCommon := fun n hn hne hsame =>
        (hof n hn hne).resolve_right fun hcondition => hkind (hsame.symm.trans hcondition)
      exact (hcommon l hl hle rfl).alike_euclid (hcommon m hm hme (Node.alike_kind halike).symm)
        (hcommon n hn hne (Node.alike_kind halike').symm) halike halike'

/-- Compiled graphs that share no rules can be composed in any order. -/
theorem exists_compose_of_perm {c : PolicyGraph} (hgs : ∀ g ∈ gs, ∃ cfg, g.IsCompiled cfg)
    (hrules : gs.Pairwise SharesNoRule) (hperm : gs'.Perm gs) (h : compose gs = .ok c) :
    ∃ c', compose gs' = .ok c' := by
  have htextual : ∀ g ∈ gs, g.IsTextual := by
    intro g hg
    obtain ⟨cfg, hcfg⟩ := hgs g hg
    exact hcfg.isTextual
  have hlevel : Node.AreLevel (gs.flatMap PolicyGraph.nodes) := by
    refine areLevel_of_sharesNoRule (fun g hg => ?_) hrules
    obtain ⟨cfg, hcfg⟩ := hgs g hg
    exact ⟨cfg, hcfg.exists_isDrawnFrom⟩
  rcases compose_eq_ok h with rfl | ⟨ns, es, hns, -⟩
  · rw [List.perm_singleton.mp hperm]
    exact ⟨c, h⟩
  · have hpair := (pairwise_of_composeNodes (by simpa using hlevel)
      (fun g hg => (htextual g hg).ids) (.refl []) hns).2
    have htextual' : ∀ g ∈ gs', g.IsTextual := fun g hg => htextual g (hperm.mem_iff.mp hg)
    obtain ⟨ns', hns'⟩ : ∃ ns', composeNodes 0 [] gs' = .ok ns' :=
      exists_composeNodes (fun g hg => (htextual' g hg).ids)
        (hlevel.pairwise_of_perm (hperm.flatMap_right PolicyGraph.nodes) hpair) (by simp)
    exact exists_compose htextual' hns'

end PolicyGraph

end Rules

end Eligibility
