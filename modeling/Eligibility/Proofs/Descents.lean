import Mathlib.Data.List.Chain
import Mathlib.Data.List.Perm.Subperm
import Mathlib.Logic.Relation
import Eligibility.Complexity.Measure
import Eligibility.Proofs.Faults
import Eligibility.Proofs.Paths
import Eligibility.Verdict.Evaluation
/-!
# Descents into rules

**Depth.**  A descent goes from a node to its operands and on to theirs, at most as far as the
depth it is given.  It gives a value exactly where every way down ends within that depth, as
far as nothing else keeps it from one.

**Circles.**  Where all nodes within reach are among finitely many, every way down ends within
their number, unless some way leads to a circle.  What counts as a way depends on the
descent: the measuring one follows every edge to an operand, the others stop at comparisons.

**Results.**
* `endsWithin_iff`, `acc_iff`: every way ends exactly where none leads to a circle.
* `failsOnly_mustHoldTo`, `failsOnly_descend`, `failsOnly_reachTo`, `failsOnly_evaluateRule`:
  a descent goes too deep only where some way does not end.
* `endsWithin_of_descend`, `endsWithin_of_reachTo`, `endsWithin_of_evaluateRule`: a descent that
  gives a value has gone every way to its end.
-/

namespace Eligibility
open Attempt

section Depth

variable {α : Type} {R : α → α → Prop} {k l : Nat} {x y : α} {xs ys : List α}

/-- Whether every way along a relation from a value ends within a number of steps. -/
def EndsWithin (R : α → α → Prop) : Nat → α → Prop
  | 0, _ => False
  | k + 1, x => ∀ y, R x y → EndsWithin R k y

theorem EndsWithin.mono (h : EndsWithin R k x) (hkl : k ≤ l) : EndsWithin R l x := by
  induction k generalizing x l with
  | zero => exact h.elim
  | succ k ih =>
      obtain ⟨l, rfl⟩ := Nat.exists_eq_succ_of_ne_zero (Nat.ne_zero_of_lt hkl)
      exact fun y hxy => ih (h y hxy) (Nat.le_of_succ_le_succ hkl)

/-- Whether some way along a relation from a value leads to a circle. -/
def LeadsToCircle (R : α → α → Prop) (x : α) : Prop :=
  ∃ y, Relation.ReflTransGen R x y ∧ Relation.TransGen R y y

/-- A way to a circle has a first step, from which on it leads to the circle as well. -/
theorem LeadsToCircle.exists_step (h : LeadsToCircle R x) : ∃ y, R x y ∧ LeadsToCircle R y := by
  obtain ⟨z, hreach, hcircle⟩ := h
  rcases hreach.cases_head with rfl | ⟨y, hxy, hyz⟩
  · obtain ⟨y, hxy, hback⟩ := Relation.TransGen.head'_iff.mp hcircle
    exact ⟨y, hxy, x, hback, hcircle⟩
  · exact ⟨y, hxy, z, hyz, hcircle⟩

theorem EndsWithin.not_leadsToCircle (h : EndsWithin R k x) : ¬ LeadsToCircle R x := by
  induction k generalizing x with
  | zero => exact h.elim
  | succ k ih =>
      intro hcircle
      obtain ⟨y, hxy, hy⟩ := hcircle.exists_step
      exact ih (h y hxy) hy

/-- A way that has not ended is as long as the number of steps. -/
theorem exists_chain_of_not_endsWithin (h : ¬ EndsWithin R k x) :
    ∃ ys : List α, ys.length = k ∧ List.IsChain R (x :: ys) := by
  induction k generalizing x with
  | zero => exact ⟨[], rfl, List.isChain_singleton x⟩
  | succ k ih =>
      simp only [EndsWithin, not_forall] at h
      obtain ⟨y, hxy, hy⟩ := h
      obtain ⟨ys, hlength, hys⟩ := ih hy
      exact ⟨y :: ys, by rw [List.length_cons, hlength], List.isChain_cons_cons.mpr ⟨hxy, hys⟩⟩

theorem pairwise_of_chain (hys : List.IsChain R ys) : ys.Pairwise (Relation.TransGen R) :=
  (hys.imp fun _ _ => Relation.TransGen.single).pairwise

/-- All that a way visits is within reach. -/
theorem reflTransGen_of_chain (hys : List.IsChain R (x :: ys)) (hy : y ∈ x :: ys) :
    Relation.ReflTransGen R x y := by
  rcases List.mem_cons.mp hy with rfl | hy
  · exact .refl
  · exact (List.rel_of_pairwise_cons (pairwise_of_chain hys) hy).to_reflTransGen

/-- A way that leads to no circle visits nothing twice. -/
theorem nodup_of_not_leadsToCircle (h : ¬ LeadsToCircle R x) (hys : List.IsChain R (x :: ys)) :
    (x :: ys).Nodup := by
  refine (pairwise_of_chain hys).imp_of_mem fun {y z} hy _ hyz heq => ?_
  subst heq
  exact h ⟨y, reflTransGen_of_chain hys hy, hyz⟩

/-- Where all that is within reach is among finitely many values, every way ends within their
number exactly if none leads to a circle. -/
theorem endsWithin_iff (hxs : ∀ y, Relation.ReflTransGen R x y → y ∈ xs) (hk : xs.length ≤ k) :
    EndsWithin R k x ↔ ¬ LeadsToCircle R x := by
  refine ⟨EndsWithin.not_leadsToCircle, fun h => by_contra fun hnot => ?_⟩
  obtain ⟨ys, hlength, hys⟩ := exists_chain_of_not_endsWithin hnot
  have hsub : x :: ys ⊆ xs := fun y hy => hxs y (reflTransGen_of_chain hys hy)
  have hle := (List.subperm_of_subset (nodup_of_not_leadsToCircle h hys) hsub).length_le
  rw [List.length_cons, hlength] at hle
  omega

theorem EndsWithin.acc (h : EndsWithin R k x) : Acc (Function.swap R) x := by
  induction k generalizing x with
  | zero => exact h.elim
  | succ k ih => exact .intro x fun y hxy => ih (h y hxy)

/-- Going down is well-founded exactly if no way leads to a circle. -/
theorem acc_iff (hxs : ∀ y, Relation.ReflTransGen R x y → y ∈ xs) :
    Acc (Function.swap R) x ↔ ¬ LeadsToCircle R x := by
  refine ⟨fun h => ?_, fun h => ((endsWithin_iff hxs le_rfl).mpr h).acc⟩
  induction h with
  | intro x _ ih =>
      intro hcircle
      obtain ⟨y, hxy, hy⟩ := hcircle.exists_step
      exact ih y hxy (fun z hyz => hxs z (.head hxy hyz)) hy

end Depth

theorem Fault.IsInner.imp {endless endless' : Prop} {f : Fault} (h : f.IsInner endless)
    (himp : endless → endless') : f.IsInner endless' :=
  ⟨h.unreported, himp ∘ h.endless⟩

/-- Going too deep is no reported fault. -/
theorem Fault.isInner_unbounded {endless : Prop} (h : endless) :
    Fault.IsInner endless .unbounded := ⟨rfl, fun _ => h⟩

namespace PolicyGraph

variable {g : PolicyGraph}

section Operands

/-- Whether a node has another one as an operand. -/
def HasOperand (g : PolicyGraph) (m n : Node) : Prop :=
  ∃ bs, g.ruleChildren m.id = .ok bs ∧ ∃ b ∈ bs, b.node = n

/-- Whether a node that is no comparison has another one as an operand. -/
def Combines (g : PolicyGraph) (m n : Node) : Prop := m.isLeaf = false ∧ g.HasOperand m n

theorem HasOperand.mem {m n : Node} (h : g.HasOperand m n) : n ∈ g.nodes := by
  obtain ⟨bs, hbs, b, hb, rfl⟩ := h
  exact mem_of_ruleChildren hbs b hb

/-- A node from which no edge leads to an operand has none. -/
theorem ruleChildren_eq_nil {k : String} (hk : g.hasNode (.str k) = true)
    (hes : (g.edges.filter fun e => decide (e.relation = .dependsOn) &&
      e.source.alike (.str k)) = []) : g.ruleChildren (.str k) = .ok [] := by
  rw [ruleChildren, outEdges_eq hk, hes]
  simp [arrange, placed]

/-- A node from which one edge leads to a condition has that condition as its operand. -/
theorem ruleChildren_eq_singleton {k : String} (hk : g.hasNode (.str k) = true) {e : Edge}
    (hes : (g.edges.filter fun e => decide (e.relation = .dependsOn) &&
      e.source.alike (.str k)) = [e]) {n : Node} (hn : g.targetOf? .condition e = some n) {i : Int}
    (hposition : e.position = .ok i) : g.ruleChildren (.str k) = .ok [⟨n, e⟩] := by
  rw [ruleChildren, outEdges_eq hk, hes]
  simp [arrange, placed, hn, hposition]

/-- Operands with their truth values are operands. -/
theorem combines_of_mem_demands {n : Node} {positive : Bool} {bs : List Branch}
    (hleaf : ¬ n.isLeaf = true) (hbs : g.ruleChildren n.id = .ok bs) {d : Node × Bool}
    (hd : d ∈ demands positive bs) : g.Combines n d.1 := by
  obtain ⟨b, hb, rfl⟩ := List.mem_map.mp hd
  exact ⟨by simpa using hleaf, bs, hbs, b, hb, rfl⟩

end Operands

section Requirements

/-- What a node needs is found, unless some way down from it does not end within the depth. -/
theorem failsOnly_mustHoldTo (fuel : Nat) (d : Node × Bool) :
    FailsOnly (Fault.IsInner (¬ EndsWithin g.Combines fuel d.1)) (g.mustHoldTo fuel d) := by
  induction fuel generalizing d with
  | zero => exact .error (Fault.isInner_unbounded id)
  | succ fuel ih =>
      obtain ⟨n, positive⟩ := d
      rw [mustHoldTo]
      split
      · exact .ok _
      · next hleaf =>
        refine n.failsOnly_operator?.bind fun o _ => ?_
        split
        · exact .ok _
        · refine (g.failsOnly_ruleChildren n.id).bind fun bs hbs => .bind (.mapM fun d hd => ?_)
            fun _ _ => .ok _
          exact (ih d).imp fun f hf => hf.imp fun hnot hends =>
            hnot (hends d.1 (combines_of_mem_demands hleaf hbs hd))

theorem failsOnly_mustHold {endless : Prop} {n : Node} (positive : Bool)
    (h : ¬ EndsWithin g.Combines g.depthBound n → endless) :
    FailsOnly (Fault.IsInner endless) (g.mustHold n positive) :=
  (failsOnly_mustHoldTo g.depthBound (n, positive)).imp fun _ hf => hf.imp h

end Requirements

section Paths

variable {context : List Literal} {ds : List (Node × Bool)}
  {below : List ((Node × Bool) × List Literal)}

theorem failsOnly_besideOthers {endless : Prop} (context : List Literal)
    (h : ∀ d ∈ ds, ¬ EndsWithin g.Combines g.depthBound d.1 → endless) :
    FailsOnly (Fault.IsInner endless) (g.besideOthers context ds) :=
  .bind (.mapM fun d hd => failsOnly_mustHold d.2 (h d hd)) fun _ _ => .ok _

/-- Demands keep their order when they get their contexts. -/
theorem map_fst_besideOthers (h : g.besideOthers context ds = .ok below) :
    below.map Prod.fst = ds := by
  obtain ⟨forced, -, h⟩ := bind_eq_ok.mp h
  obtain rfl := Except.ok.inj h
  rw [List.map_map]
  exact List.zipIdx_map_fst 0 ds

/-- The demands on the operands of a node, each with a context. -/
def demandsBeside (g : PolicyGraph) (context : List Literal) (o : Option Operator)
    (positive : Bool) (bs : List Branch) : Except Fault (List ((Node × Bool) × List Literal)) :=
  if isConjunctive o positive then g.besideOthers context (demands positive bs)
  else .ok ((demands positive bs).map fun d => (d, context))

theorem descend_succ {trail : List Name} {fuel : Nat} {n : Node} {positive : Bool}
    (hleaf : ¬ n.isLeaf = true) :
    g.descend trail (fuel + 1) ((n, positive), context) = do
      let bs ← g.ruleChildren n.id
      let o ← n.operator?
      let below ← g.demandsBeside context o positive bs
      let parts ← below.mapM (g.descend (trail ++ [n.id]) fuel)
      return parts.flatten := by
  rw [descend]
  simp only [hleaf, Bool.false_eq_true, if_false]
  refine bind_congr fun bs => bind_congr fun o => ?_
  unfold demandsBeside
  split <;> rfl

theorem map_fst_demandsBeside {o : Option Operator} {positive : Bool} {bs : List Branch}
    (h : g.demandsBeside context o positive bs = .ok below) :
    below.map Prod.fst = demands positive bs := by
  unfold demandsBeside at h
  split at h
  · exact map_fst_besideOthers h
  · obtain rfl := Except.ok.inj h
    simp [Function.comp_def]

/-- The paths below a node are found, unless some way down from it does not end within the
depth. -/
theorem failsOnly_descend (trail : List Name) {fuel : Nat} (hfuel : fuel ≤ g.depthBound)
    (x : (Node × Bool) × List Literal) :
    FailsOnly (Fault.IsInner (¬ EndsWithin g.Combines fuel x.1.1)) (g.descend trail fuel x) := by
  induction fuel generalizing trail x with
  | zero => exact .error (Fault.isInner_unbounded id)
  | succ fuel ih =>
      obtain ⟨⟨n, positive⟩, context⟩ := x
      by_cases hleaf : n.isLeaf = true
      · simp only [descend, hleaf, if_true]
        exact .ok _
      rw [descend_succ hleaf]
      refine (g.failsOnly_ruleChildren n.id).bind fun bs hbs =>
        n.failsOnly_operator?.bind fun o _ => .bind ?_ fun below hbelow =>
          .bind (.mapM fun x hx => ?_) fun _ _ => .ok _
      · unfold demandsBeside
        split
        · refine failsOnly_besideOthers context fun d hd hnot hends => hnot ?_
          exact (hends d.1 (combines_of_mem_demands hleaf hbs hd)).mono (by omega)
        · exact .ok _
      · have hd : x.1 ∈ demands positive bs :=
          map_fst_demandsBeside hbelow ▸ List.mem_map_of_mem hx
        exact (ih _ (by omega) x).imp fun f hf => hf.imp fun hnot hends =>
          hnot (hends x.1.1 (combines_of_mem_demands hleaf hbs hd))

/-- A descent that finds the paths below a node has gone every way to its end. -/
theorem endsWithin_of_descend {trail : List Name} {fuel : Nat} {x : (Node × Bool) × List Literal}
    {ps : List Path} (h : g.descend trail fuel x = .ok ps) :
    EndsWithin g.Combines fuel x.1.1 := by
  induction fuel generalizing trail x ps with
  | zero => cases h
  | succ fuel ih =>
      obtain ⟨⟨n, positive⟩, context⟩ := x
      rintro m ⟨hleaf, bs, hbs, b, hb, rfl⟩
      rw [descend_succ (by simp [hleaf])] at h
      obtain ⟨bs', hbs', h⟩ := bind_eq_ok.mp h
      obtain rfl := Except.ok.inj (hbs.symm.trans hbs')
      obtain ⟨o, -, h⟩ := bind_eq_ok.mp h
      obtain ⟨below, hbelow, h⟩ := bind_eq_ok.mp h
      obtain ⟨parts, hparts, -⟩ := bind_eq_ok.mp h
      have hd : (b.node, positive != b.edge.isNegated) ∈ below.map Prod.fst :=
        map_fst_demandsBeside hbelow ▸ List.mem_map_of_mem hb
      obtain ⟨x, hx, hxd⟩ := List.mem_map.mp hd
      obtain ⟨ps, hps⟩ := exists_ok_of_mapM hparts hx
      have := ih hps
      rwa [hxd] at this

end Paths

section Measuring

/-- The nodes below a node are found, unless some way down from it does not end within the depth. -/
theorem failsOnly_reachTo (fuel : Nat) (n : Node) :
    FailsOnly (Fault.IsInner (¬ EndsWithin g.HasOperand fuel n)) (g.reachTo fuel n) := by
  induction fuel generalizing n with
  | zero => exact .error (Fault.isInner_unbounded id)
  | succ fuel ih =>
      refine (g.failsOnly_ruleChildren n.id).bind fun bs hbs =>
        .bind (.mapM fun b hb => ?_) fun _ _ => .ok _
      exact (ih b.node).imp fun f hf => hf.imp fun hnot hends =>
        hnot (hends b.node ⟨bs, hbs, b, hb, rfl⟩)

/-- A descent that finds the nodes below a node has gone every way to its end. -/
theorem endsWithin_of_reachTo {fuel : Nat} {n : Node} {r : Reach} (h : g.reachTo fuel n = .ok r) :
    EndsWithin g.HasOperand fuel n := by
  induction fuel generalizing n r with
  | zero => cases h
  | succ fuel ih =>
      rintro m ⟨bs, hbs, b, hb, rfl⟩
      obtain ⟨bs', hbs', h⟩ := bind_eq_ok.mp h
      obtain rfl := Except.ok.inj (hbs.symm.trans hbs')
      obtain ⟨rs, hrs, -⟩ := bind_eq_ok.mp h
      obtain ⟨r, hr⟩ := exists_ok_of_mapM hrs hb
      exact ih hr

end Measuring

section Evaluating

variable {endless : Prop}

theorem failsOnly_evaluateGiven (n : Node) (o : Operator) (input : String × Json) (holds : Bool)
    (explanation : String) :
    FailsOnly (Fault.IsInner endless) (evaluateGiven n o input holds explanation) :=
  .bind (Fault.failsOnly_ofChecked _) fun _ _ => .ok _

theorem failsOnly_evaluateSupplied (n : Node) (o : Operator) (v : Operand) (text : String)
    (input : String × Json) :
    FailsOnly (Fault.IsInner endless) (evaluateSupplied n o v text input) := by
  unfold evaluateSupplied
  split
  · exact failsOnly_evaluateGiven n o input _ _
  · exact failsOnly_evaluateGiven n o input _ _
  · exact failsOnly_evaluateGiven n o input _ _
  · exact .error ⟨rfl, nofun⟩
  · exact .error ⟨rfl, nofun⟩

theorem failsOnly_evaluateLeaf (inputs : Inputs) (n : Node) :
    FailsOnly (Fault.IsInner endless) (evaluateLeaf inputs n) := by
  refine (Literal.failsOnly_condition _).bind fun c _ => c.failsOnly_describe.bind fun text _ => ?_
  split
  · split
    · exact failsOnly_evaluateSupplied n _ _ text _
    · exact .bind (Fault.failsOnly_ofChecked _) fun _ _ => .ok _
  · exact .error ⟨rfl, nofun⟩

theorem failsOnly_combine (o : Option Operator) (os : List Outcome) :
    FailsOnly (Fault.IsInner endless) (combine o os) := by
  unfold combine
  split
  · exact .error ⟨rfl, nofun⟩
  · exact .error ⟨rfl, nofun⟩
  · exact .error ⟨rfl, nofun⟩
  · exact .ok _
  · exact .ok _
  · exact .ok _

theorem failsOnly_concludeRule (n : Node) (es : List (Evaluated × Bool)) :
    FailsOnly (Fault.IsInner endless) (concludeRule n es) := by
  refine n.failsOnly_operator?.bind fun o _ => (failsOnly_combine o _).bind fun outcome _ => ?_
  cases o with
  | none => exact .error ⟨rfl, nofun⟩
  | some o => exact .bind (Fault.failsOnly_ofChecked _) fun _ _ => .ok _

/-- A rule is evaluated, unless some way down from it does not end within the depth. -/
theorem failsOnly_evaluateRule (inputs : Inputs) (fuel : Nat) (n : Node) :
    FailsOnly (Fault.IsInner (¬ EndsWithin g.Combines fuel n)) (g.evaluateRule inputs fuel n) := by
  induction fuel generalizing n with
  | zero => exact .error (Fault.isInner_unbounded id)
  | succ fuel ih =>
      rw [evaluateRule]
      split
      · exact failsOnly_evaluateLeaf inputs n
      · next hleaf =>
        refine (g.failsOnly_ruleChildren n.id).bind fun bs hbs =>
          .bind (.mapM fun b hb => .map ?_) fun es _ => failsOnly_concludeRule n es
        exact (ih b.node).imp fun f hf => hf.imp fun hnot hends =>
          hnot (hends b.node ⟨by simpa using hleaf, bs, hbs, b, hb, rfl⟩)

/-- An evaluation of a rule that gives an outcome has gone every way to its end. -/
theorem endsWithin_of_evaluateRule {inputs : Inputs} {fuel : Nat} {n : Node} {e : Evaluated}
    (h : g.evaluateRule inputs fuel n = .ok e) : EndsWithin g.Combines fuel n := by
  induction fuel generalizing n e with
  | zero => cases h
  | succ fuel ih =>
      rintro m ⟨hleaf, bs, hbs, b, hb, rfl⟩
      rw [evaluateRule, if_neg (by simp [hleaf])] at h
      obtain ⟨bs', hbs', h⟩ := bind_eq_ok.mp h
      obtain rfl := Except.ok.inj (hbs.symm.trans hbs')
      obtain ⟨es, hes, -⟩ := bind_eq_ok.mp h
      obtain ⟨e, he⟩ := exists_ok_of_mapM hes hb
      obtain ⟨e, he, -⟩ := map_eq_ok.mp he
      exact ih he

end Evaluating

end PolicyGraph

end Eligibility
