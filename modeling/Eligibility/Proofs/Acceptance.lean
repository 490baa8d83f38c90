import Mathlib.Data.List.Nodup
import Eligibility.RuleSet.Validation
import Eligibility.Proofs.Attempt
/-!
# What validation accepts

**Heads.**  A head is sound when it names itself, its variable and its clause, has a
confidence between zero and one, and its operator fits its operand and its number
of children.

**Rule sets.**  Validation visits every rule of every tree; what it accepts has sound
heads throughout, identifiers that differ, and clauses that are declared.

**Results.**
* `isSound_of_fault?`: a head without a fault is sound.
* `isSound_of_checkTrees`: the walk over trees visits every rule.
* `isAccepted_of_validate`, `isAccepted_of_parse`: what an accepted rule set looks like.
-/

namespace Eligibility

theorem mem_of_lookup {α : Type} {k : String} {v : α} {l : List (String × α)}
    (h : l.lookup k = some v) : (k, v) ∈ l := by
  induction l with
  | nil => simp at h
  | cons x l ih =>
      rw [List.lookup_cons] at h
      split at h
      · next hx =>
        cases h
        have hk : k = x.1 := by simpa using hx
        simp [hk]
      · exact List.mem_cons_of_mem _ (ih h)

namespace Rule

/-- What holds of a rule where it holds of the rules below it holds of all rules. -/
theorem induction {P : Rule → Prop} (node : ∀ h cs, (∀ c ∈ cs, P c) → P (node h cs))
    (r : Rule) : P r := by
  cases r with
  | node h cs => exact node h cs fun c _ => induction node c

mutual

/-- The rules of a tree, a rule before those below it. -/
def walk : Rule → List Rule
  | node h cs => node h cs :: walkAll cs

/-- The rules of several trees, tree after tree. -/
def walkAll : List Rule → List Rule
  | [] => []
  | r :: rs => walk r ++ walkAll rs

end

theorem mem_walk_self (r : Rule) : r ∈ r.walk := by
  cases r with
  | node h cs => simp [walk]

theorem walkAll_eq_flatMap (rs : List Rule) : walkAll rs = rs.flatMap walk := by
  induction rs with
  | nil => simp [walkAll]
  | cons r rs ih => simp [walkAll, ih]

theorem mem_walkAll {r : Rule} {rs : List Rule} : r ∈ walkAll rs ↔ ∃ t ∈ rs, r ∈ t.walk := by
  induction rs with
  | nil => simp [walkAll]
  | cons t rs ih => simp [walkAll, ih]

mutual

theorem heads_eq_map_walk : ∀ r : Rule, r.heads = r.walk.map head
  | node h cs => by simp [heads, walk, headsOf_eq_map_walkAll cs]

theorem headsOf_eq_map_walkAll : ∀ rs : List Rule, headsOf rs = (walkAll rs).map head
  | [] => by simp [headsOf, walkAll]
  | r :: rs => by simp [headsOf, walkAll, heads_eq_map_walk r, headsOf_eq_map_walkAll rs]

end

mutual

/-- The rules below a rule of a tree are rules of the tree. -/
theorem mem_walk_of_mem_children {c t : Rule} (hc : c ∈ t.children) :
    ∀ r : Rule, t ∈ r.walk → c ∈ r.walk
  | node h cs, ht => by
      rcases List.mem_cons.mp (by simpa [walk] using ht : t ∈ node h cs :: walkAll cs) with rfl | ht
      · have : c ∈ walkAll cs := mem_walkAll.mpr ⟨c, hc, mem_walk_self c⟩
        simp [walk, this]
      · simp [walk, mem_walkAll_of_mem_children hc cs ht]

theorem mem_walkAll_of_mem_children {c t : Rule} (hc : c ∈ t.children) :
    ∀ rs : List Rule, t ∈ walkAll rs → c ∈ walkAll rs
  | [], ht => by simp [walkAll] at ht
  | r :: rs, ht => by
      have ht : t ∈ r.walk ++ walkAll rs := by simpa [walkAll] using ht
      rcases List.mem_append.mp ht with ht | ht
      · simp [walkAll, mem_walk_of_mem_children hc r ht]
      · simp [walkAll, mem_walkAll_of_mem_children hc rs ht]

end

mutual

/-- The rules of a part of a tree stand together in the tree. -/
theorem walk_sublist_of_mem {t : Rule} : ∀ r : Rule, t ∈ r.walk → t.walk.Sublist r.walk
  | node h cs, ht => by
      rcases List.mem_cons.mp (by simpa [walk] using ht : t ∈ node h cs :: walkAll cs) with rfl | ht
      · exact List.Sublist.refl _
      · rw [walk.eq_def (node h cs)]
        exact (walkAll_sublist_of_mem cs ht).cons _

theorem walkAll_sublist_of_mem {t : Rule} :
    ∀ rs : List Rule, t ∈ walkAll rs → t.walk.Sublist (walkAll rs)
  | [], ht => by simp [walkAll] at ht
  | r :: rs, ht => by
      rw [walkAll]
      have ht : t ∈ r.walk ++ walkAll rs := by simpa [walkAll] using ht
      rcases List.mem_append.mp ht with ht | ht
      · exact (walk_sublist_of_mem r ht).trans (List.sublist_append_left _ _)
      · exact (walkAll_sublist_of_mem rs ht).trans (List.sublist_append_right _ _)

end

mutual

/-- A tree has at least as many rules as levels. -/
theorem depth_le_length_walk : ∀ r : Rule, r.depth ≤ r.walk.length
  | node h cs => by
      have := depthOf_le_length_walkAll cs
      simp only [depth, walk, List.length_cons]
      omega

theorem depthOf_le_length_walkAll : ∀ rs : List Rule, depthOf rs ≤ (walkAll rs).length
  | [] => by simp [depthOf]
  | r :: rs => by
      have hr := depth_le_length_walk r
      have hrs := depthOf_le_length_walkAll rs
      simp only [depthOf, walkAll, List.length_append]
      exact Nat.max_le.mpr ⟨by omega, by omega⟩

end

theorem depth_le_depthOf {r : Rule} {rs : List Rule} (h : r ∈ rs) : r.depth ≤ depthOf rs := by
  induction rs with
  | nil => simp at h
  | cons t rs ih =>
      rw [depthOf]
      rcases List.mem_cons.mp h with rfl | h
      · exact Nat.le_max_left _ _
      · exact Nat.le_trans (ih h) (Nat.le_max_right _ _)

end Rule

namespace Head

/-- A head that passes every check of its own, with a number of rules below it. -/
structure IsSound (h : Head) (children : Nat) : Prop where
  id_ne : h.id ≠ ""
  subject_ne : h.subject ≠ ""
  clause_ne : h.clause ≠ ""
  confidence : ∃ x, h.confidence = some x ∧ isConfidence x = true
  logical : h.operator.isLogical = true →
    h.value = none ∧ children ≠ 0 ∧ (h.operator = .not → children = 1)
  comparison : h.operator.isLogical = false →
    children = 0 ∧ ∃ v, h.value = some v ∧ fits h.operator v.kind = true ∧
      ∀ x, v = .number x → x.isFinite = true

theorem missing_eq_nil {h : Head} (hm : h.missing.isEmpty = true) :
    h.id ≠ "" ∧ h.subject ≠ "" ∧ h.clause ≠ "" ∧ ∃ x, h.confidence = some x := by
  simp only [missing, List.isEmpty_iff, List.append_eq_nil_iff, ite_eq_right_iff,
    List.cons_ne_nil, imp_false] at hm
  obtain ⟨⟨⟨⟨hid, hsubject⟩, hclause⟩, hconfidence⟩, -⟩ := hm
  refine ⟨hid, hsubject, hclause, Option.ne_none_iff_exists'.mp ?_⟩
  simpa using hconfidence

theorem of_operandFault? {h : Head} {v : Operand} (hf : operandFault? h v = none) :
    fits h.operator v.kind = true ∧ ∀ x, v = .number x → x.isFinite = true := by
  unfold operandFault? at hf
  split at hf
  · cases hf
  · next hfit =>
    refine ⟨by simpa using hfit, ?_⟩
    rintro x rfl
    by_contra hx
    simp [hx] at hf

theorem isSound_of_fault? {h : Head} {n : Nat} (hf : h.fault? n = none) : h.IsSound n := by
  unfold fault? at hf
  split at hf
  · cases hf
  next hm =>
  obtain ⟨hid, hsubject, hclause, x, hx⟩ := missing_eq_nil (by simpa using hm)
  rw [hx] at hf
  simp only at hf
  split at hf
  · cases hf
  next hc =>
  refine ⟨hid, hsubject, hclause, ⟨x, hx, by simpa using hc⟩, ?_, ?_⟩
  · intro hl
    rw [if_pos hl] at hf
    unfold logicalFault? at hf
    split_ifs at hf with hv hn hnot
    exact ⟨by simpa using hv, hn, fun ho => by simpa [ho] using hnot⟩
  · intro hl
    rw [if_neg (by simp [hl])] at hf
    unfold comparisonFault? at hf
    split at hf
    · cases hf
    next hn =>
    cases hv : h.value with
    | none => simp [hv] at hf
    | some v =>
        rw [hv] at hf
        exact ⟨by simpa using hn, v, rfl, of_operandFault? hf⟩

end Head

namespace RuleSet

section Walk

theorem checkHead_eq_ok {path : List String} {ds es : Domains} {h : Head} {n : Nat}
    (hc : checkHead path ds h n = .ok es) : h.fault? n = none := by
  unfold checkHead at hc
  split at hc
  · cases hc
  · cases hf : h.fault? n with
    | none => rfl
    | some f => simp [hf] at hc

mutual

/-- A tree that passes its checks has sound heads throughout. -/
theorem isSound_of_checkTree {path : List String} {ds es : Domains} :
    ∀ r : Rule, checkTree path ds r = .ok es →
      ∀ t ∈ r.walk, t.head.IsSound t.children.length
  | .node h cs, hc, t, ht => by
      unfold checkTree at hc
      split at hc
      · cases hc
      · next ds' hh =>
        rcases List.mem_cons.mp (by simpa [Rule.walk] using ht) with rfl | ht
        · exact Head.isSound_of_fault? (checkHead_eq_ok hh)
        · exact isSound_of_checkTrees cs hc t ht

/-- Trees that pass their checks have sound heads throughout. -/
theorem isSound_of_checkTrees {path : List String} {ds es : Domains} :
    ∀ rs : List Rule, checkTrees path ds rs = .ok es →
      ∀ t ∈ Rule.walkAll rs, t.head.IsSound t.children.length
  | [], _, t, ht => by simp [Rule.walkAll] at ht
  | r :: rs, hc, t, ht => by
      unfold checkTrees at hc
      split at hc
      · cases hc
      · next ds' hr =>
        rcases List.mem_append.mp (by simpa [Rule.walkAll] using ht) with ht | ht
        · exact isSound_of_checkTree r hr t ht
        · exact isSound_of_checkTrees rs hc t ht

end

end Walk

section Sets

theorem nodup_of_repeated? {xs : List String} (h : repeated? xs = none) : xs.Nodup := by
  rw [List.nodup_iff_count_le_one]
  intro x
  by_cases hx : x ∈ xs
  · have := List.find?_eq_none.mp (Option.map_eq_none_iff.mp h) x hx
    simpa using this
  · simp [List.count_eq_zero_of_not_mem hx]

theorem nodup_of_repeatedClause? {seen : List String} {cs : List (String × String)}
    (h : repeatedClause? seen cs = none) :
    (cs.map (·.1)).Nodup ∧ ∀ c ∈ cs.map (·.1), c ∉ seen := by
  induction cs generalizing seen with
  | nil => simp
  | cons c r ih =>
      obtain ⟨id, policy⟩ := c
      unfold repeatedClause? at h
      split at h
      · cases h
      next hid =>
      obtain ⟨hr, hseen⟩ := ih h
      refine ⟨?_, ?_⟩
      · rw [List.map_cons, List.nodup_cons]
        exact ⟨fun hm => hseen id hm (by simp), hr⟩
      · intro c hc
        rcases List.mem_cons.mp hc with rfl | hc
        · exact hid
        · exact fun hm => hseen c hc (List.mem_cons_of_mem _ hm)

/-- What the checks of a rule set establish. -/
structure IsAccepted (s : RuleSet) : Prop where
  sound : ∀ r ∈ Rule.walkAll s.rules, r.head.IsSound r.children.length
  ids : (s.heads.map Head.id).Nodup
  policies : (s.documents.map Document.policy).Nodup
  clauses : ((ownedClauses s.documents).map (·.1)).Nodup
  cited : s.documents ≠ [] → ∀ h ∈ s.heads, h.clause ∈ (ownedClauses s.documents).map (·.1)

theorem of_documentFault? {s : RuleSet} (h : s.documentFault? = none) :
    (s.documents.map Document.policy).Nodup ∧ ((ownedClauses s.documents).map (·.1)).Nodup ∧
      (s.documents ≠ [] → ∀ h ∈ s.heads, h.clause ∈ (ownedClauses s.documents).map (·.1)) := by
  unfold documentFault? at h
  split at h
  · next he =>
    have he := List.isEmpty_iff.mp he
    exact ⟨by simp [he], by simp [he, ownedClauses], fun hne => absurd he hne⟩
  · split at h
    · cases h
    next hp =>
    split at h
    · cases h
    next hc =>
    refine ⟨nodup_of_repeated? hp, (nodup_of_repeatedClause? hc).1, fun _ k hk => ?_⟩
    have := List.find?_eq_none.mp (Option.map_eq_none_iff.mp h) k hk
    simpa using this

theorem isAccepted_of_validate {cfg : Settings} {s t : RuleSet} (h : s.validate cfg = .ok t) :
    s.IsAccepted ∧ t = s := by
  unfold validate at h
  split at h
  · cases h
  next hf =>
  refine ⟨?_, by cases h; rfl⟩
  unfold fault? at hf
  split at hf
  · cases hf
  split at hf
  · cases hf
  split at hf
  · cases hf
  next hc =>
  split at hf
  · cases hf
  next hids =>
  obtain ⟨hp, hcl, hcited⟩ := of_documentFault? hf
  exact ⟨isSound_of_checkTrees s.rules hc, nodup_of_repeated? hids, hp, hcl, hcited⟩

/-- What is parsed is what is read, where it is accepted. -/
theorem parse_eq_ok {cfg : Settings} {payload : Json} {s : RuleSet} :
    parse cfg payload = .ok s ↔ ofPayload payload = .ok s ∧ s.validate cfg = .ok s := by
  unfold parse
  cases hpayload : ofPayload payload with
  | error f => simp
  | ok t =>
      constructor
      · intro hs
        obtain rfl := (isAccepted_of_validate hs).2
        exact ⟨rfl, hs⟩
      · rintro ⟨hst, hs⟩
        obtain rfl := Except.ok.inj hst
        exact hs

/-- A rule set that is parsed is accepted. -/
theorem isAccepted_of_parse {cfg : Settings} {payload : Json} {s : RuleSet}
    (h : parse cfg payload = .ok s) : s.IsAccepted :=
  (isAccepted_of_validate (parse_eq_ok.mp h).2).1

end Sets

end RuleSet
end Eligibility
