import Eligibility.Conflict.Scope
import Eligibility.PolicyGraph.Path
import Eligibility.Proofs.Attempt
/-!
# What keeps an operation from a result

**Faults.**  A lookup in a graph, a reading of a property and a question about conditions fail
for reasons that are not reported: an edge without a usable position, an operator that is
none, names without an order.  None of them is that a descent went too deep.

**Use.**  `FailsOnly P x` says that whatever keeps `x` from a value has the property `P`.
It passes through binds, traversals and folds, so that each operation needs only to be
followed down to the functions it is made of.

**Results.**
* `FailsOnly.bind`, `FailsOnly.mapM`, `FailsOnly.foldlM`: how attempts combine.
* `IsInner`: the faults that are not reported, with a condition on going too deep.
* `failsOnly_ruleChildren`, `failsOnly_condition`, `failsOnly_jointly`: the faults of lookups
  and of questions about conditions.
-/

namespace Eligibility

namespace Attempt

section Causes

variable {ε α β : Type} {P Q : ε → Prop} {x : Except ε α}

/-- Whether whatever keeps an attempt from a value has a property. -/
def FailsOnly (P : ε → Prop) (x : Except ε α) : Prop := ∀ e, x = .error e → P e

theorem FailsOnly.ok (a : α) : FailsOnly P (.ok a) := nofun

theorem FailsOnly.error {e : ε} (he : P e) : FailsOnly P (.error e : Except ε α) := by
  rintro e' ⟨⟩
  exact he

theorem FailsOnly.imp (h : FailsOnly P x) (hPQ : ∀ e, P e → Q e) : FailsOnly Q x :=
  fun e he => hPQ e (h e he)

theorem FailsOnly.bind {f : α → Except ε β} (hx : FailsOnly P x)
    (hf : ∀ a, x = .ok a → FailsOnly P (f a)) : FailsOnly P (x >>= f) := by
  intro e he
  rcases bind_eq_error.mp he with hxe | ⟨a, ha, hfe⟩
  · exact hx e hxe
  · exact hf a ha e hfe

theorem FailsOnly.map {f : α → β} (hx : FailsOnly P x) : FailsOnly P (x.map f) := by
  cases x with
  | error e => exact .error (hx e rfl)
  | ok a => exact .ok (f a)

theorem FailsOnly.mapM {f : α → Except ε β} {xs : List α} (h : ∀ x ∈ xs, FailsOnly P (f x)) :
    FailsOnly P (xs.mapM f) := by
  intro e he
  obtain ⟨x, hx, hfx⟩ := exists_of_mapM_error he
  exact h x hx e hfx

theorem FailsOnly.foldlM {f : β → α → Except ε β} {xs : List α} {b : β}
    (h : ∀ b, ∀ x ∈ xs, FailsOnly P (f b x)) : FailsOnly P (xs.foldlM f b) := by
  induction xs generalizing b with
  | nil => exact .ok b
  | cons x xs ih =>
      rw [List.foldlM_cons]
      exact (h b x List.mem_cons_self).bind fun c _ =>
        ih fun b y hy => h b y (List.mem_cons_of_mem x hy)

theorem FailsOnly.filterM {f : α → Except ε Bool} {xs : List α}
    (h : ∀ x ∈ xs, FailsOnly P (f x)) : FailsOnly P (xs.filterM f) := by
  have hfold : ∀ acc, FailsOnly P (xs.filterAuxM f acc) := by
    induction xs with
    | nil => exact .ok
    | cons x xs ih =>
        intro acc
        exact (h x List.mem_cons_self).bind fun b _ =>
          ih (fun y hy => h y (List.mem_cons_of_mem x hy)) _
  exact (hfold []).bind fun ys _ => .ok ys.reverse

theorem FailsOnly.forM {f : α → Except ε Unit} {xs : List α} (h : ∀ x ∈ xs, FailsOnly P (f x)) :
    FailsOnly P (forM xs f) := by
  intro e he
  obtain ⟨x, hx, hfx⟩ := exists_of_forM_error he
  exact h x hx e hfx

/-- Where a fold gives a value, so does its step at each item. -/
theorem exists_ok_of_foldlM {f : β → α → Except ε β} {xs : List α} {b c : β}
    (h : xs.foldlM f b = .ok c) {x : α} (hx : x ∈ xs) : ∃ b' c', f b' x = .ok c' := by
  induction xs generalizing b with
  | nil => simp at hx
  | cons y xs ih =>
      rw [List.foldlM_cons] at h
      obtain ⟨d, hd, h⟩ := bind_eq_ok.mp h
      rcases List.mem_cons.mp hx with rfl | hx
      · exact ⟨b, d, hd⟩
      · exact ih h hx

end Causes

end Attempt

open Attempt

/-- Whether a fault is not reported and says that a descent went too deep only where one is
endless. -/
structure Fault.IsInner (endless : Prop) (f : Fault) : Prop where
  unreported : f.isReported = false
  endless : f = .unbounded → endless

section Names

variable {endless : Prop}

theorem Fault.failsOnly_ordered (a b : Name) : FailsOnly (IsInner endless) (Fault.ordered a b) := by
  unfold Fault.ordered
  split
  · exact .ok _
  · exact .error ⟨rfl, nofun⟩

theorem Fault.failsOnly_sorted (ns : List Name) : FailsOnly (IsInner endless) (Fault.sorted ns) := by
  unfold Fault.sorted
  split
  · exact .ok _
  · exact .error ⟨rfl, nofun⟩

theorem Fault.failsOnly_ofChecked {α : Type} (x : Schema.Checked α) :
    FailsOnly (IsInner endless) (Fault.ofChecked x) := by
  cases x with
  | ok a => exact .ok a
  | flawed fs => exact .error ⟨rfl, nofun⟩

theorem Fault.failsOnly_number (j : Json) : FailsOnly (IsInner endless) (Fault.number j) := by
  unfold Fault.number
  split
  · exact .ok _
  · exact .ok _
  · split
    · exact .ok _
    · exact .error ⟨rfl, nofun⟩
  · split
    · exact .ok _
    · exact .error ⟨rfl, nofun⟩
  · exact .error ⟨rfl, nofun⟩

theorem Fault.failsOnly_mappingOrEmpty (j : Json) :
    FailsOnly (IsInner endless) (Fault.mappingOrEmpty j) := by
  unfold Fault.mappingOrEmpty Fault.mapping
  split
  · split
    · exact .ok _
    · exact .error ⟨rfl, nofun⟩
    · exact .error ⟨rfl, nofun⟩
  · exact .ok _

end Names

section Conditions

variable {endless : Prop}

theorem Node.failsOnly_operator? (n : Node) : FailsOnly (Fault.IsInner endless) n.operator? := by
  unfold Node.operator?
  split
  · exact .ok _
  · split
    · exact .ok _
    · exact .error ⟨rfl, nofun⟩
  · exact .error ⟨rfl, nofun⟩

namespace Condition

theorem failsOnly_describe (c : Condition) : FailsOnly (Fault.IsInner endless) c.describe := by
  unfold describe
  split
  · exact .ok _
  · exact .error ⟨rfl, nofun⟩

theorem failsOnly_answer (a : Option Bool) : FailsOnly (Fault.IsInner endless) (answer a) := by
  cases a with
  | some b => exact .ok b
  | none => exact .error ⟨rfl, nofun⟩

theorem failsOnly_jointly (a b : Condition) : FailsOnly (Fault.IsInner endless) (a.jointly b) := by
  unfold jointly
  split
  · exact .ok _
  · split
    · exact failsOnly_answer _
    · exact .error ⟨rfl, nofun⟩

theorem failsOnly_implies (a b : Condition) : FailsOnly (Fault.IsInner endless) (a.implies b) := by
  unfold implies
  split
  · exact .ok _
  · split
    · exact failsOnly_answer _
    · exact .error ⟨rfl, nofun⟩

end Condition

namespace Literal

theorem failsOnly_operator? (l : Literal) : FailsOnly (Fault.IsInner endless) l.operator? := by
  unfold operator?
  split
  · next f hf => exact .error (Node.failsOnly_operator? l.node f hf)
  · split
    · exact .ok _
    · split
      · exact .error ⟨rfl, nofun⟩
      · split
        · exact .ok _
        · exact .error ⟨rfl, nofun⟩

theorem failsOnly_condition (l : Literal) : FailsOnly (Fault.IsInner endless) l.condition :=
  l.failsOnly_operator?.map

theorem failsOnly_describe (l : Literal) : FailsOnly (Fault.IsInner endless) l.describe :=
  l.failsOnly_condition.bind fun c _ => c.failsOnly_describe

end Literal

end Conditions

namespace Edge

theorem failsOnly_position {endless : Prop} (e : Edge) :
    FailsOnly (Fault.IsInner endless) e.position := by
  unfold position
  split
  · exact .ok _
  · exact .ok _
  · exact .ok _
  · split
    · exact .ok _
    · split
      · exact .error ⟨rfl, nofun⟩
      · exact .error ⟨rfl, nofun⟩
  · split
    · exact .ok _
    · exact .error ⟨rfl, nofun⟩
    · exact .error ⟨rfl, nofun⟩
  · exact .error ⟨rfl, nofun⟩

end Edge

namespace PolicyGraph

variable {endless : Prop} (g : PolicyGraph)

section Lookups

theorem failsOnly_node (n : Name) : FailsOnly (Fault.IsInner endless) (g.node n) := by
  unfold node
  split
  · exact .ok _
  · split
    · exact .error ⟨rfl, nofun⟩
    · exact .error ⟨rfl, nofun⟩

theorem failsOnly_outEdges (n : Name) (r : Option Relation) :
    FailsOnly (Fault.IsInner endless) (g.outEdges n r) :=
  (g.failsOnly_node n).map

theorem failsOnly_placed (bs : List Branch) : FailsOnly (Fault.IsInner endless) (placed bs) := by
  induction bs with
  | nil => exact .ok []
  | cons b bs ih => exact b.edge.failsOnly_position.bind fun _ _ => ih.bind fun _ _ => .ok _

theorem failsOnly_ruleChildren (n : Name) : FailsOnly (Fault.IsInner endless) (g.ruleChildren n) :=
  (g.failsOnly_outEdges n _).bind fun _ _ => (failsOnly_placed _).map

theorem failsOnly_requiredPolicies (policy : Name) :
    FailsOnly (Fault.IsInner endless) (g.requiredPolicies policy) :=
  (g.failsOnly_outEdges _ _).bind fun _ _ => .ok _

theorem failsOnly_clausesOf (policy : Name) :
    FailsOnly (Fault.IsInner endless) (g.clausesOf policy) :=
  (g.failsOnly_outEdges _ _).bind fun _ _ => .ok _

theorem failsOnly_noteLink (self : Name) (ls : Links) (e : Edge) :
    FailsOnly (Fault.IsInner endless) (g.noteLink self ls e) := by
  unfold noteLink
  split
  · exact .ok _
  · generalize (if e.source.same self then e.target else e.source) = other
    dsimp only
    split
    · exact .ok _
    · split
      · exact .ok _
      · split
        · exact .error ⟨rfl, nofun⟩
        · exact .ok _

theorem failsOnly_linkedBy (first second : Name) :
    FailsOnly (Fault.IsInner endless) (g.linkedBy first second) := by
  unfold linkedBy linkedPolicies
  split
  · exact .error ⟨rfl, nofun⟩
  · refine FailsOnly.map ?_
    dsimp only
    split
    · exact .ok _
    · exact .foldlM fun ls e _ => g.failsOnly_noteLink _ ls e

end Lookups

end PolicyGraph
end Eligibility
