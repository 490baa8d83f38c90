import Mathlib.Data.Multiset.Bind
import Eligibility.Proofs.Commitments
import Eligibility.Proofs.Refinement
import Eligibility.Proofs.WellFormedness
/-!
# Rule sets that match in some order

**Lists.**  Two lists match by a relation of their items when each item of one is related to an
item of the other, all of them in pairs, in whatever order.

**Rules.**  Two trees match by a relation of heads when their heads are related and the trees
below them match in some order.  Two rule sets match when their rules do and they have the same
documents in some order.

**Plans.**  The plans of rule sets that match have the same policies with the same requirements,
and give to each of them rules that match.

**Results.**
* `Rule.Matches.walk`: trees that match hold rules that match.
* `RuleSet.Matches.isWellFormed`: of rule sets that match both are accepted or neither.
* `RuleSet.Matches.plans`: the plans of rule sets that match.
-/

namespace Eligibility

section Lists

variable {α β γ δ : Type} {R : α → β → Prop} {S : γ → δ → Prop} {xs : List α} {ys : List β}

/-- Lists whose items are related in pairs, in whatever order. -/
def Matched (R : α → β → Prop) (xs : List α) (ys : List β) : Prop :=
  Multiset.Rel R (xs : Multiset α) (ys : Multiset β)

namespace Matched

theorem nil : Matched R [] [] := .zero

theorem cons {x : α} {y : β} (hxy : R x y) (h : Matched R xs ys) :
    Matched R (x :: xs) (y :: ys) := Multiset.Rel.cons hxy h

theorem of_forall₂ (h : List.Forall₂ R xs ys) : Matched R xs ys := by
  induction h with
  | nil => exact .nil
  | cons hxy _ ih => exact ih.cons hxy

theorem perm {ys' : List β} (h : Matched R xs ys) (hperm : ys.Perm ys') : Matched R xs ys' := by
  rwa [Matched, ← Multiset.coe_eq_coe.mpr hperm]

theorem perm_left {xs' : List α} (h : Matched R xs ys) (hperm : xs.Perm xs') :
    Matched R xs' ys := by
  rwa [Matched, ← Multiset.coe_eq_coe.mpr hperm]

theorem eq_iff {zs : List α} : Matched (· = ·) xs zs ↔ xs.Perm zs :=
  Multiset.rel_eq.trans Multiset.coe_eq_coe

theorem symm (h : Matched R xs ys) : Matched (fun y x => R x y) ys xs :=
  Multiset.rel_flip.mpr h

theorem imp {T : α → β → Prop} (h : Matched R xs ys)
    (hRT : ∀ x ∈ xs, ∀ y ∈ ys, R x y → T x y) : Matched T xs ys :=
  Multiset.Rel.mono h hRT

theorem length_eq (h : Matched R xs ys) : xs.length = ys.length :=
  Multiset.card_eq_card_of_rel h

theorem append {xs' : List α} {ys' : List β} (h : Matched R xs ys) (h' : Matched R xs' ys') :
    Matched R (xs ++ xs') (ys ++ ys') := by
  simpa only [Matched, Multiset.coe_add] using Multiset.Rel.add h h'

theorem map {f : α → γ} {k : β → δ} (h : Matched R xs ys) (hS : ∀ x y, R x y → S (f x) (k y)) :
    Matched S (xs.map f) (ys.map k) := by
  rw [Matched, ← Multiset.map_coe, ← Multiset.map_coe, Multiset.rel_map]
  exact Multiset.Rel.mono h fun x _ y _ hxy => hS x y hxy

theorem map_perm {f : α → γ} {k : β → γ} (h : Matched R xs ys) (hS : ∀ x y, R x y → f x = k y) :
    (xs.map f).Perm (ys.map k) :=
  eq_iff.mp (h.map hS)

theorem flatMap {f : α → List γ} {k : β → List δ} (h : Matched R xs ys)
    (hS : ∀ x ∈ xs, ∀ y ∈ ys, R x y → Matched S (f x) (k y)) :
    Matched S (xs.flatMap f) (ys.flatMap k) := by
  rw [Matched, ← Multiset.coe_bind, ← Multiset.coe_bind]
  exact Multiset.rel_bind (fun _ _ hxy => hxy) (Multiset.Rel.mono h hS)

theorem exists_left (h : Matched R xs ys) {y : β} (hy : y ∈ ys) : ∃ x ∈ xs, R x y := by
  obtain ⟨zs, hzs⟩ := Multiset.exists_cons_of_mem (Multiset.mem_coe.mpr hy)
  rw [Matched, hzs, Multiset.rel_cons_right] at h
  obtain ⟨x, us, hx, -, hus⟩ := h
  exact ⟨x, by rw [← Multiset.mem_coe, hus]; exact Multiset.mem_cons_self x us, hx⟩

theorem exists_right (h : Matched R xs ys) {x : α} (hx : x ∈ xs) : ∃ y ∈ ys, R x y :=
  h.symm.exists_left hx

/-- Two lists that match one by one after one of them has been reordered. -/
theorem exists_forall₂ (h : Matched R xs ys) : ∃ zs, List.Forall₂ R xs zs ∧ zs.Perm ys := by
  induction xs generalizing ys with
  | nil => exact ⟨[], .nil, by simpa [Matched, Multiset.rel_zero_left, eq_comm] using h⟩
  | cons x xs ih =>
      rw [Matched, ← Multiset.cons_coe, Multiset.rel_cons_left] at h
      obtain ⟨y, us, hxy, hus, hys⟩ := h
      induction us using Quotient.inductionOn with
      | h us =>
          obtain ⟨zs, hzs, hperm⟩ := ih hus
          exact ⟨y :: zs, .cons hxy hzs,
            (hperm.cons y).trans (Multiset.coe_eq_coe.mp hys).symm⟩

/-- Where items that correspond one by one to the items of lists that match are related, the lists
of them match. -/
theorem join {xs' : List γ} {ys' : List δ} {P : α → γ → Prop} {Q : β → δ → Prop}
    (h : Matched R xs ys) (hxs : List.Forall₂ P xs xs') (hys : List.Forall₂ Q ys ys')
    (hS : ∀ x ∈ xs, ∀ y ∈ ys, ∀ x' y', R x y → P x x' → Q y y' → S x' y') :
    Matched S xs' ys' := by
  obtain ⟨zs, hzs, hperm⟩ := h.exists_forall₂
  obtain ⟨zs', hzs', hperm'⟩ := List.perm_comp_forall₂ hperm hys
  refine (of_forall₂ ?_).perm hperm'
  have hmem : ∀ z ∈ zs, z ∈ ys := fun z hz => hperm.mem_iff.mp hz
  clear h hperm hys hperm' ys'
  induction hzs generalizing xs' zs' with
  | nil =>
      cases hxs
      cases hzs'
      exact .nil
  | cons hxz _ ih =>
      cases hxs with
      | cons hx hxs =>
          cases hzs' with
          | cons hz hzs' =>
              obtain ⟨hz', hrest⟩ := List.forall_mem_cons.mp hmem
              refine .cons (hS _ List.mem_cons_self _ hz' _ _ hxz hx hz) (ih hxs ?_ _ hzs' hrest)
              exact fun a ha b hb => hS a (List.mem_cons_of_mem _ ha) b hb

/-- An item taken out of a list leaves behind what matches the other list without the item that is
related to it. -/
theorem exists_split {before after : List α} {x : α} (h : Matched R (before ++ x :: after) ys) :
    ∃ before' y after', ys = before' ++ y :: after' ∧ R x y ∧
      Matched R (before ++ after) (before' ++ after') := by
  have h := h.perm_left List.perm_middle
  rw [Matched, ← Multiset.cons_coe, Multiset.rel_cons_left] at h
  obtain ⟨y, us, hxy, hus, hys⟩ := h
  have hy : y ∈ ys := by
    rw [← Multiset.mem_coe, hys]
    exact Multiset.mem_cons_self y us
  obtain ⟨before', after', rfl⟩ := List.append_of_mem hy
  refine ⟨before', y, after', rfl, hxy, ?_⟩
  rw [Multiset.coe_eq_coe.mpr List.perm_middle, ← Multiset.cons_coe, Multiset.cons_inj_right] at hys
  rwa [Matched, hys]

theorem filter {p : α → Bool} {q : β → Bool} (h : Matched R xs ys)
    (hpq : ∀ x ∈ xs, ∀ y ∈ ys, R x y → p x = q y) : Matched R (xs.filter p) (ys.filter q) := by
  obtain ⟨zs, hzs, hperm⟩ := h.exists_forall₂
  refine (of_forall₂ ?_).perm (hperm.filter q)
  have hmem : ∀ z ∈ zs, z ∈ ys := fun z hz => hperm.mem_iff.mp hz
  clear h hperm
  induction hzs with
  | nil => exact .nil
  | @cons x z xs zs hxz hrest ih =>
      have hsame := hpq x List.mem_cons_self z (hmem z List.mem_cons_self) hxz
      have hkept := ih (fun a ha => hpq a (List.mem_cons_of_mem x ha))
        fun a ha => hmem a (List.mem_cons_of_mem z ha)
      rw [List.filter_cons, List.filter_cons, hsame]
      split
      · exact hkept.cons hxz
      · exact hkept

end Matched

end Lists

/-- Heads that differ at most in their confidences, and whose confidences are related. -/
structure Head.Varies (K : Number → Number → Prop) (h k : Head) : Prop where
  eq : k = { h with confidence := k.confidence }
  confidence : ∃ x y, h.confidence = some x ∧ k.confidence = some y ∧ K x y

namespace Head.Varies

variable {K : Number → Number → Prop} {h k : Head}

theorem id (hk : h.Varies K k) : k.id = h.id := by rw [hk.eq]

theorem subject (hk : h.Varies K k) : k.subject = h.subject := by rw [hk.eq]

theorem operator (hk : h.Varies K k) : k.operator = h.operator := by rw [hk.eq]

theorem value (hk : h.Varies K k) : k.value = h.value := by rw [hk.eq]

theorem clause (hk : h.Varies K k) : k.clause = h.clause := by rw [hk.eq]

theorem symm (hk : h.Varies K k) : k.Varies (fun y x => K x y) h := by
  obtain ⟨x, y, hx, hy, hxy⟩ := hk.confidence
  exact ⟨by rw [hk.eq], y, x, hy, hx, hxy⟩

theorem domain? (hk : h.Varies K k) : k.domain? = h.domain? := by
  rw [Head.domain?, Head.domain?, hk.operator, hk.value]

theorem isWellFormed (hk : h.Varies K k) (hK : ∀ x y, K x y → isConfidence y = true) {n : Nat}
    (hh : h.IsWellFormed n) : k.IsWellFormed n where
  id_ne := hk.id ▸ hh.id_ne
  subject_ne := hk.subject ▸ hh.subject_ne
  clause_ne := hk.clause ▸ hh.clause_ne
  confidence := by
    obtain ⟨x, y, -, hy, hxy⟩ := hk.confidence
    obtain ⟨q, hq⟩ := isConfidence_iff.mp (hK x y hxy)
    exact ⟨y, q, hy, hq⟩
  logical := by
    rw [hk.operator, hk.value]
    exact hh.logical
  comparison := by
    rw [hk.operator, hk.value]
    exact hh.comparison

end Head.Varies

namespace Rule

/-- Trees whose heads are related and whose trees below these match in some order. -/
inductive Matches (R : Head → Head → Prop) : Rule → Rule → Prop
  | node {h k : Head} {cs ds : List Rule} (head : R h k)
      (children : Multiset.Rel (Matches R) (cs : Multiset Rule) (ds : Multiset Rule)) :
      Matches R (node h cs) (node k ds)

namespace Matches

variable {R S : Head → Head → Prop} {r t : Rule} {rs ts : List Rule}

theorem head (h : r.Matches R t) : R r.head t.head := by
  cases h with
  | node head _ => exact head

theorem children (h : r.Matches R t) : Matched (Matches R) r.children t.children := by
  cases h with
  | node _ children => exact children

theorem imp (h : r.Matches R t) (hRS : ∀ a ∈ r.walk, ∀ k, R a.head k → S a.head k) :
    r.Matches S t := by
  induction r using Rule.induction generalizing t with
  | node k cs ih =>
      cases h with
      | node head children =>
          refine .node (hRS _ (mem_walk_self _) _ head) (children.mono fun c hc d _ hcd => ?_)
          refine ih c hc hcd fun a ha => hRS a ?_
          rw [walk]
          exact List.mem_cons_of_mem _ (mem_walkAll.mpr ⟨c, hc, ha⟩)

theorem symm (h : r.Matches R t) : t.Matches (fun k h => R h k) r := by
  induction r using Rule.induction generalizing t with
  | node k cs ih =>
      cases h with
      | node head children =>
          exact .node head (Multiset.rel_flip.mpr (children.mono fun c hc d _ hcd => ih c hc hcd))

/-- The rules of trees that match do so in pairs. -/
theorem walk (h : r.Matches R t) : Matched (Matches R) r.walk t.walk := by
  induction r using Rule.induction generalizing t with
  | node k cs ih =>
      have hhere := h
      cases h with
      | node head children =>
          rw [Rule.walk, Rule.walk, walkAll_eq_flatMap, walkAll_eq_flatMap]
          exact .cons hhere (Matched.flatMap children fun c hc d _ hcd => ih c hc hcd)

theorem walkAll (h : Matched (Matches R) rs ts) :
    Matched (Matches R) (walkAll rs) (Rule.walkAll ts) := by
  rw [walkAll_eq_flatMap, walkAll_eq_flatMap]
  exact h.flatMap fun _ _ _ _ hrt => hrt.walk

theorem headsOf (h : Matched (Matches R) rs ts) : Matched R (headsOf rs) (Rule.headsOf ts) := by
  rw [headsOf_eq_map_walkAll, headsOf_eq_map_walkAll]
  exact (walkAll h).map fun _ _ hrt => hrt.head

end Matches

end Rule

/-- Rule sets with rules that match and with the same documents, in some order. -/
structure RuleSet.Matches (R : Head → Head → Prop) (s t : RuleSet) : Prop where
  version : s.version = t.version
  domains : s.domains = t.domains
  documents : s.documents.Perm t.documents
  rules : Matched (Rule.Matches R) s.rules t.rules

namespace RuleSet

variable {K : Number → Number → Prop} {s t : RuleSet} {cfg : Settings}

theorem Matches.imp {R S : Head → Head → Prop} (h : s.Matches R t)
    (hRS : ∀ a ∈ s.heads, ∀ k, R a k → S a k) : s.Matches S t := by
  refine ⟨h.version, h.domains, h.documents, h.rules.imp fun r hr u _ hru => ?_⟩
  refine hru.imp fun a ha k hk => hRS _ ?_ k hk
  rw [heads, Rule.headsOf_eq_map_walkAll]
  exact List.mem_map_of_mem (Rule.mem_walkAll.mpr ⟨r, hr, ha⟩)

/-- Validation accepts the well-formed rule sets. -/
theorem validate_eq_ok_iff : s.validate cfg = .ok s ↔ s.IsWellFormed cfg := by
  rw [← fault?_eq_none_iff, validate]
  cases s.fault? cfg <;> simp

/-- A rule set that matches an accepted one is accepted, if its confidences are some. -/
theorem Matches.isWellFormed (h : s.Matches (Head.Varies K) t)
    (hK : ∀ x y, K x y → Head.isConfidence y = true) (hs : s.IsWellFormed cfg) :
    t.IsWellFormed cfg := by
  have hheads : Matched (Head.Varies K) s.heads t.heads := Rule.Matches.headsOf h.rules
  have hnil : t.documents ≠ [] → s.documents ≠ [] := by
    intro ht hnil
    exact ht (List.nil_perm.mp (hnil ▸ h.documents))
  constructor
  · exact h.version ▸ hs.version
  · exact h.domains ▸ hs.declared
  · intro r hr
    obtain ⟨a, ha, har⟩ := (Rule.Matches.walkAll h.rules).exists_left hr
    rw [← har.children.length_eq]
    exact har.head.isWellFormed hK (hs.rules a ha)
  · intro k hk l hl hsubject
    obtain ⟨a, ha, hak⟩ := hheads.exists_left hk
    obtain ⟨b, hb, hbl⟩ := hheads.exists_left hl
    rw [hak.domain?, hbl.domain?]
    exact hs.domains a ha b hb (by rw [← hak.subject, ← hbl.subject, hsubject])
  · intro k hk
    obtain ⟨a, ha, hak⟩ := hheads.exists_left hk
    rw [hak.domain?, hak.subject, ← h.domains]
    exact hs.declaredDomains a ha
  · exact (hheads.map_perm fun _ _ hk => hk.id.symm).nodup_iff.mp hs.ids
  · exact fun ht => (h.documents.map _).nodup_iff.mp (hs.policies (hnil ht))
  · exact fun ht => (h.documents.flatMap_right _).nodup_iff.mp (hs.clauses (hnil ht))
  · intro ht k hk
    obtain ⟨a, ha, hak⟩ := hheads.exists_left hk
    obtain ⟨d, hd, c, hc, hclause⟩ := hs.cited (hnil ht) a ha
    exact ⟨d, h.documents.mem_iff.mp hd, c, hc, hclause.trans hak.clause.symm⟩

end RuleSet

/-- Plans with the same policies and requirements, in some order, whose rules match for each
policy.  A policy has the same clauses in both, unless a single rule decides it. -/
structure Plan.Matches (K : Number → Number → Prop) (p q : Plan) : Prop where
  documents : Matched (fun d e => d.policy = e.policy ∧ d.prerequisites = e.prerequisites ∧
    (d.clauses = e.clauses ∨ d.prerequisites = [] ∧ (p.rootsOf d.policy).length = 1))
    p.documents q.documents
  roots (a : String) : Matched (Rule.Matches (Head.Varies K)) (p.rootsOf a) (q.rootsOf a)

namespace RuleSet

variable {K : Number → Number → Prop} {s t : RuleSet} {p q : Plan}

theorem Matches.assigns (h : s.Matches (Head.Varies K) t) {r u : Rule}
    (hru : r.Matches (Head.Varies K) u) (a : String) : s.assigns a r = t.assigns a u := by
  have hempty : s.documents.isEmpty = t.documents.isEmpty := by
    rw [Bool.eq_iff_iff, List.isEmpty_iff_length_eq_zero, List.isEmpty_iff_length_eq_zero,
      h.documents.length_eq]
  have hid : r.id = u.id := hru.head.id.symm
  unfold RuleSet.assigns
  rw [hempty, hid, hru.head.clause, h.documents.any_eq]

/-- A policy that stands for a top-level rule has that rule alone. -/
theorem length_rootsOf (hs : s.IsAccepted) (hp : s.plan = .ok p) (hnone : s.documents = [])
    {d : Document} (hd : d ∈ p.documents) : (p.rootsOf d.policy).length = 1 := by
  have hmem : d.policy ∈ s.rules.map Rule.id := by
    have hpolicies := Plan.policies_eq hp
    rw [policies, hnone, List.isEmpty_nil, if_pos rfl] at hpolicies
    exact hpolicies ▸ List.mem_map_of_mem hd
  rw [Plan.rootsOf_eq hs hp, ← List.countP_eq_length_filter,
    ← List.count_eq_one_of_mem (rules_ids_nodup hs) hmem, List.count, List.countP_map]
  refine List.countP_congr fun r _ => ?_
  simp [assigns, hnone]

/-- The plans of rule sets that match do so. -/
theorem Matches.plans (h : s.Matches (Head.Varies K) t) (hs : s.IsAccepted) (ht : t.IsAccepted)
    (hp : s.plan = .ok p) (hq : t.plan = .ok q) : p.Matches K q where
  documents := by
    have hpdocuments := (plan_spec hp).2
    have hqdocuments := (plan_spec hq).2
    by_cases hnone : s.documents = []
    · have hnone' : t.documents = [] := List.nil_perm.mp (hnone ▸ h.documents)
      rw [if_pos hnone] at hpdocuments
      rw [if_pos hnone'] at hqdocuments
      have hpolicies : Matched (fun d e => d.policy = e.policy) p.documents q.documents := by
        refine Multiset.rel_map.mp (Matched.eq_iff.mpr ?_)
        rw [hpdocuments.1, hqdocuments.1, declare_policies, declare_policies]
        exact h.rules.map_perm fun _ _ hru => hru.head.id.symm
      refine hpolicies.imp fun d hd e he hde => ⟨hde, ?_⟩
      have hdnone := (mentions_of_declare (hpdocuments.1 ▸ hd)).1
      have henone := (mentions_of_declare (hqdocuments.1 ▸ he)).1
      exact ⟨hdnone.trans henone.symm, .inr ⟨hdnone, length_rootsOf hs hp hnone hd⟩⟩
    · have hsome : t.documents ≠ [] := fun hnil =>
        hnone (List.perm_nil.mp (hnil ▸ h.documents))
      rw [if_neg hnone] at hpdocuments
      rw [if_neg hsome] at hqdocuments
      rw [hpdocuments.1, hqdocuments.1]
      refine (Matched.eq_iff.mpr h.documents).imp ?_
      rintro d - _ - rfl
      exact ⟨rfl, rfl, .inl rfl⟩
  roots a := by
    rw [Plan.rootsOf_eq hs hp, Plan.rootsOf_eq ht hq]
    exact h.rules.filter fun r _ u _ hru => h.assigns hru a

end RuleSet

end Eligibility
