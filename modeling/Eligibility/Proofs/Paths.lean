import Eligibility.PolicyGraph.Path
import Eligibility.Proofs.Lookup
/-!
# Paths of graphs

**Origin.**  Whatever a graph looks like, composed or read from a file, the literals that its
policies need and those of its paths are on conditions of the graph that have no operands.

**Results.**
* `mem_of_ruleChildren`, `kind_of_ruleChildren`: the operands of a node are nodes, and conditions.
* `isOn_of_requirements`: the literals that a policy needs.
* `isOn_of_paths`: the literals of the paths of a policy.
-/

namespace Eligibility

/-- A literal on a condition of a graph that has no operands. -/
structure Literal.IsOn (g : PolicyGraph) (l : Literal) : Prop where
  node : l.node ∈ g.nodes
  leaf : l.node.isLeaf = true

namespace PolicyGraph

variable {g : PolicyGraph} {ls : List Literal}

theorem mem_of_node? {n : Name} {m : Node} (h : g.node? n = some m) : m ∈ g.nodes :=
  List.mem_of_find?_eq_some h

section Operands

theorem mem_of_placed {bs : List Branch} {ps : List (Int × Branch)} (h : placed bs = .ok ps) :
    ∀ q ∈ ps, q.2 ∈ bs := by
  induction bs generalizing ps with
  | nil =>
      obtain rfl := Except.ok.inj h
      exact List.forall_mem_nil _
  | cons b r ih =>
      obtain ⟨i, -, h⟩ := Attempt.bind_eq_ok.mp h
      obtain ⟨rest, hrest, h⟩ := Attempt.bind_eq_ok.mp h
      obtain rfl := Except.ok.inj h
      exact List.forall_mem_cons.mpr
        ⟨List.mem_cons_self, fun q hq => List.mem_cons_of_mem b (ih hrest q hq)⟩

/-- The operands of a node are the conditions that edges lead to. -/
theorem exists_target_of_ruleChildren {n : Name} {bs : List Branch}
    (h : g.ruleChildren n = .ok bs) {b : Branch} (hb : b ∈ bs) :
    ∃ e, g.targetOf? .condition e = some b.node := by
  obtain ⟨es, -, harrange⟩ := Attempt.bind_eq_ok.mp h
  obtain ⟨ps, hps, rfl⟩ := Attempt.map_eq_ok.mp harrange
  obtain ⟨q, hq, rfl⟩ := List.mem_map.mp hb
  obtain ⟨e, -, he⟩ := List.mem_filterMap.mp
    (mem_of_placed hps q ((List.mergeSort_perm _ _).mem_iff.mp hq))
  obtain ⟨m, hm, he⟩ := Option.map_eq_some_iff.mp he
  exact ⟨e, he ▸ hm⟩

/-- The operands of a node are nodes. -/
theorem mem_of_ruleChildren {n : Name} {bs : List Branch} (h : g.ruleChildren n = .ok bs) :
    ∀ b ∈ bs, b.node ∈ g.nodes := by
  intro b hb
  obtain ⟨e, he⟩ := exists_target_of_ruleChildren h hb
  exact mem_of_node? (Option.filter_eq_some_iff.mp he).1

/-- The operands of a node are conditions. -/
theorem kind_of_ruleChildren {n : Name} {bs : List Branch} (h : g.ruleChildren n = .ok bs) :
    ∀ b ∈ bs, b.node.kind = .condition := by
  intro b hb
  obtain ⟨e, he⟩ := exists_target_of_ruleChildren h hb
  simpa using (Option.filter_eq_some_iff.mp he).2

/-- Operands with their truth values are nodes. -/
theorem mem_of_demands (positive : Bool) {bs : List Branch} (hbs : ∀ b ∈ bs, b.node ∈ g.nodes) :
    ∀ d ∈ demands positive bs, d.1 ∈ g.nodes := by
  intro d hd
  obtain ⟨b, hb, rfl⟩ := List.mem_map.mp hd
  exact hbs b hb

theorem mem_of_rootDemands {policy : Name} {ds : List (Node × Bool)}
    (h : g.rootDemands policy = .ok ds) : ∀ d ∈ ds, d.1 ∈ g.nodes := by
  obtain ⟨bs, hbs, rfl⟩ := Attempt.map_eq_ok.mp h
  intro d hd
  obtain ⟨b, hb, rfl⟩ := List.mem_map.mp hd
  exact mem_of_ruleChildren hbs b hb

end Operands

section Requirements

theorem isOn_of_mustHoldTo {fuel : Nat} {d : Node × Bool} (hd : d.1 ∈ g.nodes)
    (h : g.mustHoldTo fuel d = .ok ls) : ∀ l ∈ ls, l.IsOn g := by
  induction fuel generalizing d ls with
  | zero => cases h
  | succ fuel ih =>
      obtain ⟨n, positive⟩ := d
      rw [mustHoldTo] at h
      split at h
      · next hleaf =>
        obtain rfl := Except.ok.inj h
        exact List.forall_mem_singleton.mpr ⟨hd, hleaf⟩
      · obtain ⟨o, -, h⟩ := Attempt.bind_eq_ok.mp h
        split at h
        · obtain rfl := Except.ok.inj h
          exact List.forall_mem_nil _
        · obtain ⟨bs, hbs, h⟩ := Attempt.bind_eq_ok.mp h
          obtain ⟨parts, hparts, h⟩ := Attempt.bind_eq_ok.mp h
          obtain rfl := Except.ok.inj h
          exact Attempt.mapM_flatten_keeps hparts fun d hd ls hls =>
            ih (mem_of_demands positive (mem_of_ruleChildren hbs) d hd) hls

/-- The literals that a node needs are on conditions without operands. -/
theorem isOn_of_mustHold {n : Node} {positive : Bool} (hn : n ∈ g.nodes)
    (h : g.mustHold n positive = .ok ls) : ∀ l ∈ ls, l.IsOn g :=
  isOn_of_mustHoldTo (d := (n, positive)) hn h

/-- The literals that a policy needs are on conditions without operands. -/
theorem isOn_of_requirements {policy : Name} (h : g.requirements policy = .ok ls) :
    ∀ l ∈ ls, l.IsOn g := by
  obtain ⟨ds, hds, h⟩ := Attempt.bind_eq_ok.mp h
  obtain ⟨parts, hparts, h⟩ := Attempt.bind_eq_ok.mp h
  obtain rfl := Except.ok.inj h
  exact Attempt.mapM_flatten_keeps hparts fun d hd ls hls =>
    isOn_of_mustHold (mem_of_rootDemands hds d hd) hls

end Requirements

section Paths

theorem isOn_of_besideOthers {context : List Literal} {ds : List (Node × Bool)}
    {below : List ((Node × Bool) × List Literal)} (hcontext : ∀ l ∈ context, l.IsOn g)
    (hds : ∀ d ∈ ds, d.1 ∈ g.nodes) (h : g.besideOthers context ds = .ok below) :
    ∀ x ∈ below, x.1.1 ∈ g.nodes ∧ ∀ l ∈ x.2, l.IsOn g := by
  obtain ⟨forced, hforced, h⟩ := Attempt.bind_eq_ok.mp h
  obtain rfl := Except.ok.inj h
  have hall := Attempt.mapM_flatten_keeps hforced fun d hd ls hls => isOn_of_mustHold (hds d hd) hls
  intro x hx
  obtain ⟨⟨d, i⟩, hdi, rfl⟩ := List.mem_map.mp hx
  refine ⟨hds d (List.fst_mem_of_mem_zipIdx hdi), List.forall_mem_append.mpr ⟨hcontext, ?_⟩⟩
  intro l hl
  obtain ⟨part, hpart, hl⟩ := List.mem_flatten.mp hl
  exact hall l (List.mem_flatten.mpr ⟨part, List.mem_of_mem_eraseIdx hpart, hl⟩)

theorem isOn_of_descend {trail : List Name} {fuel : Nat} {x : (Node × Bool) × List Literal}
    {ps : List Path} (hnode : x.1.1 ∈ g.nodes) (hcontext : ∀ l ∈ x.2, l.IsOn g)
    (h : g.descend trail fuel x = .ok ps) : ∀ p ∈ ps, ∀ l ∈ p.literals, l.IsOn g := by
  induction fuel generalizing trail x ps with
  | zero => cases h
  | succ fuel ih =>
      obtain ⟨⟨n, positive⟩, context⟩ := x
      rw [descend] at h
      dsimp only at h
      split at h
      · next hleaf =>
        obtain rfl := Except.ok.inj h
        exact List.forall_mem_singleton.mpr (List.forall_mem_cons.mpr ⟨⟨hnode, hleaf⟩, hcontext⟩)
      · obtain ⟨bs, hbs, h⟩ := Attempt.bind_eq_ok.mp h
        obtain ⟨o, -, h⟩ := Attempt.bind_eq_ok.mp h
        have hds := mem_of_demands positive (mem_of_ruleChildren hbs)
        obtain ⟨below, hall, h⟩ : ∃ below : List ((Node × Bool) × List Literal),
            (∀ x ∈ below, x.1.1 ∈ g.nodes ∧ ∀ l ∈ x.2, l.IsOn g) ∧
              (below.mapM (g.descend (trail ++ [n.id]) fuel) >>= fun parts =>
                pure parts.flatten) = .ok ps := by
          split at h
          · obtain ⟨below, hbelow, h⟩ := Attempt.bind_eq_ok.mp h
            exact ⟨below, isOn_of_besideOthers hcontext hds hbelow, h⟩
          · refine ⟨_, fun x hx => ?_, h⟩
            obtain ⟨d, hd, rfl⟩ := List.mem_map.mp hx
            exact ⟨hds d hd, hcontext⟩
        obtain ⟨parts, hparts, h⟩ := Attempt.bind_eq_ok.mp h
        obtain rfl := Except.ok.inj h
        exact Attempt.mapM_flatten_keeps hparts fun x hx ps hps =>
          ih (hall x hx).1 (hall x hx).2 hps

/-- The literals of the paths of a policy are on conditions without operands. -/
theorem isOn_of_paths {policy : Name} {ps : List Path} (h : g.paths policy = .ok ps) :
    ∀ p ∈ ps, ∀ l ∈ p.literals, l.IsOn g := by
  obtain ⟨ds, hds, h⟩ := Attempt.bind_eq_ok.mp h
  obtain ⟨below, hbelow, h⟩ := Attempt.bind_eq_ok.mp h
  obtain ⟨parts, hparts, h⟩ := Attempt.bind_eq_ok.mp h
  obtain rfl := Except.ok.inj h
  have hall := isOn_of_besideOthers (List.forall_mem_nil _) (mem_of_rootDemands hds) hbelow
  exact Attempt.mapM_flatten_keeps hparts fun x hx ps hps =>
    isOn_of_descend (hall x hx).1 (hall x hx).2 hps

end Paths

end PolicyGraph
end Eligibility
