import Eligibility.Proofs.Layout
/-!
# The edges of compiled graphs

**Drafts.**  The edges of a graph are numbered drafts, each drawn once.  A filter
over the edges that looks at no number is a filter over the drafts.

**Dependencies.**  A rule depends on the rules directly below it and a policy on
its top-level rules; the label of such a draft gives the position.

**Results.**
* `mem_drafts_dependsOn`: the dependencies that are drawn.
* `filter_number`: filters over numbered edges.
* `filter_requirements`: the requirements of a policy, in the order of its document.
-/

namespace Eligibility

section Numbers

theorem Decimal.digitsOf_inj {m n : Nat} (h : Decimal.digitsOf m = Decimal.digitsOf n) : m = n := by
  have := congrArg (Nat.ofDigitChars 10 · 0) h
  simpa [Decimal.digitsOf, Nat.ofDigitChars_ten_toDigits] using this

/-- Edges that are drawn after one another have different identifiers. -/
theorem Edge.numbered_inj {m n : Nat} (h : Edge.numbered m = Edge.numbered n) : m = n := by
  have hread : ∀ k, Nat.ofDigitChars 10
      (List.replicate (5 - (Decimal.digitsOf (k + 1)).length) '0' ++
        Decimal.digitsOf (k + 1)) 0 = k + 1 := by
    intro k
    rw [Nat.ofDigitChars_append, Nat.ofDigitChars_replicate_zero, Nat.mul_zero]
    exact Nat.ofDigitChars_ten_toDigits
  simp only [Edge.numbered, Json.str.injEq, String.ofList_inj, List.cons.injEq, true_and] at h
  have := hread m
  rw [h, hread n] at this
  omega

end Numbers

namespace Draft

theorem mem_firsts {seen ds : List Draft} {d : Draft} :
    d ∈ firsts seen ds ↔ d ∈ ds ∧ d ∉ seen := by
  induction ds generalizing seen with
  | nil => simp [firsts]
  | cons e r ih =>
      unfold firsts
      split
      · next he => rw [ih]; grind
      · next he => rw [List.mem_cons, ih]; grind

theorem firsts_nodup (seen ds : List Draft) : (firsts seen ds).Nodup := by
  induction ds generalizing seen with
  | nil => simp [firsts]
  | cons e r ih =>
      unfold firsts
      split
      · exact ih seen
      · refine List.nodup_cons.mpr ⟨fun h => ?_, ih _⟩
        exact (mem_firsts.mp h).2 (by simp)

/-- Drafts that differ and were not seen before all stand. -/
theorem firsts_eq_self {seen ds : List Draft} (h : ds.Nodup) (hs : ∀ d ∈ ds, d ∉ seen) :
    firsts seen ds = ds := by
  induction ds generalizing seen with
  | nil => rfl
  | cons e r ih =>
      obtain ⟨he, hr⟩ := List.nodup_cons.mp h
      rw [firsts, if_neg (hs e (by simp)), ih hr]
      intro d hd hm
      rcases List.mem_cons.mp hm with rfl | hm
      · exact he hd
      · exact hs d (List.mem_cons_of_mem _ hd) hm

/-- The drafts of a class are sorted out before or after the repeated ones are dropped. -/
theorem filter_firsts (P : Draft → Bool) {seen ds : List Draft} (seen' : List Draft)
    (h : ∀ d, P d = true → (d ∈ seen ↔ d ∈ seen')) :
    (firsts seen ds).filter P = firsts seen' (ds.filter P) := by
  induction ds generalizing seen seen' with
  | nil => rfl
  | cons d r ih =>
      by_cases hP : P d = true
      · rw [List.filter_cons_of_pos hP, firsts, firsts]
        by_cases hd : d ∈ seen
        · rw [if_pos hd, if_pos ((h d hP).mp hd), ih seen' h]
        · rw [if_neg hd, if_neg (fun hd' => hd ((h d hP).mpr hd')), List.filter_cons_of_pos hP]
          rw [ih (d :: seen')]
          intro e he
          simp [h e he]
      · rw [List.filter_cons_of_neg hP, firsts]
        by_cases hd : d ∈ seen
        · rw [if_pos hd, ih seen' h]
        · rw [if_neg hd, List.filter_cons_of_neg hP, ih seen']
          intro e he
          have hne : e ≠ d := fun h' => hP (h' ▸ he)
          simp [hne, h e he]

/-- A filter over numbered edges that looks at no number is one over the drafts. -/
theorem filter_number {Q : Edge → Bool} {P : Draft → Bool} (h : ∀ d n, Q (d.toEdge n) = P d)
    (n : Nat) (ds : List Draft) :
    List.Forall₂ (fun d e => ∃ m, e = d.toEdge m) (ds.filter P) ((number n ds).filter Q) := by
  induction ds generalizing n with
  | nil => exact .nil
  | cons d r ih =>
      by_cases hP : P d = true
      · rw [number, List.filter_cons_of_pos hP, List.filter_cons_of_pos (by rw [h, hP])]
        exact .cons ⟨n, rfl⟩ (ih (n + 1))
      · rw [number, List.filter_cons_of_neg hP, List.filter_cons_of_neg (by rw [h]; exact hP)]
        exact ih (n + 1)

theorem mem_number {n : Nat} {ds : List Draft} {e : Edge} :
    e ∈ number n ds ↔ ∃ (i : Nat) (d : Draft), ds[i]? = some d ∧ e = d.toEdge (n + i) := by
  induction ds generalizing n with
  | nil => simp [number]
  | cons d r ih =>
      rw [number, List.mem_cons, ih]
      constructor
      · rintro (rfl | ⟨i, d', hi, rfl⟩)
        · exact ⟨0, d, rfl, rfl⟩
        · exact ⟨i + 1, d', by simpa using hi, by rw [Nat.add_assoc, Nat.add_comm 1 i]⟩
      · rintro ⟨i, d', hi, rfl⟩
        cases i with
        | zero => left; rw [show d = d' by simpa using hi]; rfl
        | succ i =>
            right
            exact ⟨i, d', by simpa using hi, by rw [Nat.add_assoc, Nat.add_comm 1 i]⟩

end Draft

namespace Plan

section Dependencies

/-- The dependencies of a rule on the rules directly below it. -/
def links (r : Rule) : List Draft :=
  r.children.zipIdx.map fun c =>
    ⟨Node.conditionKey r.id, Node.conditionKey c.1.id, .dependsOn, .operand r.operator c.2⟩

/-- The dependencies of a policy on its top-level rules. -/
def rootLinks (policy : String) (roots : List Rule) : List Draft :=
  roots.zipIdx.map fun c =>
    ⟨Node.policyKey policy, Node.conditionKey c.1.id, .dependsOn, .root c.2⟩

/-- What is drawn for a rule besides its dependencies. -/
def ownDrafts (ds : List Document) (policy : String) (h : Head) : List Draft :=
  clauseDrafts ds policy h ++ operandDrafts h

theorem relation_ne_of_mem_ownDrafts {ds : List Document} {policy : String} {h : Head} {d : Draft}
    (hd : d ∈ ownDrafts ds policy h) : d.relation ≠ .dependsOn := by
  unfold ownDrafts clauseDrafts operandDrafts at hd
  grind

mutual

theorem mem_treeDrafts {ds : List Document} {policy : String} {d : Draft} : ∀ r : Rule,
    d ∈ treeDrafts ds policy r ↔
      ∃ t ∈ r.walk, d ∈ ownDrafts ds policy t.head ∨ d ∈ links t
  | .node h cs => by
      have below : d ∈ childDrafts ds policy h 0 cs ↔ _ := mem_childDrafts h 0 cs
      simp only [treeDrafts, Rule.walk, List.mem_append, below, List.mem_cons, exists_eq_or_imp,
        ownDrafts, links, List.mem_map, Rule.head_node, Rule.children_node, Rule.id,
        Rule.operator]
      constructor
      · rintro (h | h | ⟨c, hc, rfl⟩ | h)
        · exact .inl (.inl (.inl h))
        · exact .inl (.inl (.inr h))
        · exact .inl (.inr ⟨c, hc, rfl⟩)
        · exact .inr h
      · rintro (((h | h) | ⟨c, hc, rfl⟩) | h)
        · exact .inl h
        · exact .inr (.inl h)
        · exact .inr (.inr (.inl ⟨c, hc, rfl⟩))
        · exact .inr (.inr (.inr h))

theorem mem_childDrafts {ds : List Document} {policy : String} {d : Draft} (h : Head) :
    ∀ (n : Nat) (cs : List Rule), d ∈ childDrafts ds policy h n cs ↔
      (∃ c ∈ cs.zipIdx n, d = ⟨Node.conditionKey h.id, Node.conditionKey c.1.id, .dependsOn,
        .operand h.operator c.2⟩) ∨
      ∃ t ∈ Rule.walkAll cs, d ∈ ownDrafts ds policy t.head ∨ d ∈ links t
  | _, [] => by simp [childDrafts, Rule.walkAll]
  | n, r :: rs => by
      simp only [childDrafts, List.mem_cons, List.mem_append, mem_treeDrafts r,
        mem_childDrafts h (n + 1) rs, List.zipIdx_cons, Rule.walkAll, or_and_right, exists_or,
        exists_eq_left]
      rw [← or_assoc]
      exact or_or_or_comm

end

theorem mem_rootDrafts {ds : List Document} {policy : String} {d : Draft} :
    ∀ (n : Nat) (rs : List Rule), d ∈ rootDrafts ds policy n rs ↔
      (∃ c ∈ rs.zipIdx n, d = ⟨Node.policyKey policy, Node.conditionKey c.1.id, .dependsOn,
        .root c.2⟩) ∨
      ∃ t ∈ Rule.walkAll rs, d ∈ ownDrafts ds policy t.head ∨ d ∈ links t
  | _, [] => by simp [rootDrafts, Rule.walkAll]
  | n, r :: rs => by
      simp only [rootDrafts, List.mem_cons, List.mem_append, mem_treeDrafts r,
        mem_rootDrafts (n + 1) rs, List.zipIdx_cons, Rule.walkAll, or_and_right, exists_or,
        exists_eq_left]
      rw [← or_assoc]
      exact or_or_or_comm

variable {p : Plan}

/-- What is drawn: clauses, top-level rules, rules, and what documents mention. -/
theorem mem_drafts {d : Draft} : d ∈ p.drafts ↔
    (∃ e ∈ p.documents, ∃ c ∈ e.clauses,
      d = ⟨Node.policyKey e.policy, Node.clauseKey c.id, .contains, .plain⟩) ∨
    (∃ e ∈ p.documents, d ∈ rootLinks e.policy (p.rootsOf e.policy)) ∨
    (∃ q ∈ p.placed, d ∈ ownDrafts p.documents q.1 q.2.head ∨ d ∈ links q.2) ∨
    ∃ e ∈ p.documents, d ∈ mentionDrafts e := by
  simp only [drafts, List.mem_append, List.mem_flatMap, List.mem_map, mem_rootDrafts, rootLinks,
    placed]
  constructor
  · rintro ((⟨e, he, c, hc, rfl⟩ | ⟨e, he, ⟨c, hc, rfl⟩ | ⟨t, ht, h⟩⟩) | ⟨e, he, h⟩)
    · exact .inl ⟨e, he, c, hc, rfl⟩
    · exact .inr (.inl ⟨e, he, c, hc, rfl⟩)
    · exact .inr (.inr (.inl ⟨(e.policy, t), ⟨e, he, t, ht, rfl⟩, h⟩))
    · exact .inr (.inr (.inr ⟨e, he, h⟩))
  · rintro (⟨e, he, c, hc, rfl⟩ | ⟨e, he, c, hc, rfl⟩ | ⟨q, ⟨e, he, t, ht, rfl⟩, h⟩ | ⟨e, he, h⟩)
    · exact .inl (.inl ⟨e, he, c, hc, rfl⟩)
    · exact .inl (.inr ⟨e, he, .inl ⟨c, hc, rfl⟩⟩)
    · exact .inl (.inr ⟨e, he, .inr ⟨t, ht, h⟩⟩)
    · exact .inr ⟨e, he, h⟩

theorem relation_of_mem_mentionDrafts {e : Document} {d : Draft} (hd : d ∈ mentionDrafts e) :
    d.relation ≠ .dependsOn ∧ d.relation ≠ .contains ∧ d.source = Node.policyKey e.policy := by
  unfold mentionDrafts at hd
  grind

/-- The dependencies on rules: of policies on top-level rules, and of rules on those below. -/
theorem mem_drafts_dependsOn {d : Draft} (hd : d.relation = .dependsOn) : d ∈ p.drafts ↔
    (∃ e ∈ p.documents, d ∈ rootLinks e.policy (p.rootsOf e.policy)) ∨
      ∃ q ∈ p.placed, d ∈ links q.2 := by
  rw [mem_drafts]
  constructor
  · rintro (⟨e, -, c, -, rfl⟩ | h | ⟨q, hq, h | h⟩ | ⟨e, -, h⟩)
    · simp at hd
    · exact .inl h
    · exact absurd hd (relation_ne_of_mem_ownDrafts h)
    · exact .inr ⟨q, hq, h⟩
    · exact absurd hd (relation_of_mem_mentionDrafts h).1
  · rintro (h | ⟨q, hq, h⟩)
    · exact .inr (.inl h)
    · exact .inr (.inr (.inl ⟨q, hq, .inr h⟩))

/-- Whether a draft is a dependency of the node of a key. -/
def isLinkOf (k : String) (d : Draft) : Bool :=
  decide (d.relation = .dependsOn) && decide (d.source = k)

/-- The drafts of a graph, each drawn once. -/
def drawn (p : Plan) : List Draft := Draft.firsts [] p.drafts

theorem mem_drawn {d : Draft} : d ∈ p.drawn ↔ d ∈ p.drafts := by
  simp [drawn, Draft.mem_firsts]

theorem nodup_map_zipIdx {α : Type} (xs : List α) (f : α × Nat → Draft)
    (h : ∀ a b, f a = f b → a.2 = b.2) : (xs.zipIdx.map f).Nodup := by
  have hpair : xs.zipIdx.Pairwise fun a b => a.2 ≠ b.2 := by
    refine List.pairwise_map.mp ?_
    rw [List.zipIdx_map_snd]
    exact List.nodup_range'
  rw [List.Nodup, List.pairwise_map]
  exact hpair.imp fun hne e => hne (h _ _ e)

/-- The dependencies of a placed rule are drawn once each. -/
theorem filter_links (hp : p.IsSound) {q : String × Rule} (hq : q ∈ p.placed) :
    (p.drawn.filter (isLinkOf (Node.conditionKey q.2.id))).Perm (links q.2) := by
  refine (List.perm_ext_iff_of_nodup ((Draft.firsts_nodup _ _).filter _)
    (nodup_map_zipIdx _ _ fun a b h => by simp at h; exact h.2)).mpr fun d => ?_
  rw [List.mem_filter, ← drawn, mem_drawn, isLinkOf, Bool.and_eq_true, decide_eq_true_eq,
    decide_eq_true_eq]
  constructor
  · rintro ⟨hd, hr, hs⟩
    rcases (mem_drafts_dependsOn hr).mp hd with ⟨e, -, h⟩ | ⟨x, hx, h⟩
    · obtain ⟨c, -, rfl⟩ := List.mem_map.mp h
      simp at hs
    · obtain ⟨c, -, rfl⟩ := List.mem_map.mp h
      have : x = q := eq_of_placed hp hx hq (by simpa using hs)
      rwa [← this]
  · intro h
    obtain ⟨c, -, rfl⟩ := List.mem_map.mp h
    exact ⟨(mem_drafts_dependsOn rfl).mpr (.inr ⟨q, hq, h⟩), rfl, rfl⟩

/-- The dependencies of a policy on its top-level rules are drawn once each. -/
theorem filter_rootLinks (hp : p.IsSound) {e : Document} (he : e ∈ p.documents) :
    (p.drawn.filter (isLinkOf (Node.policyKey e.policy))).Perm
      (rootLinks e.policy (p.rootsOf e.policy)) := by
  refine (List.perm_ext_iff_of_nodup ((Draft.firsts_nodup _ _).filter _)
    (nodup_map_zipIdx _ _ fun a b h => by simp at h; exact h.2)).mpr fun d => ?_
  rw [List.mem_filter, ← drawn, mem_drawn, isLinkOf, Bool.and_eq_true, decide_eq_true_eq,
    decide_eq_true_eq]
  constructor
  · rintro ⟨hd, hr, hs⟩
    rcases (mem_drafts_dependsOn hr).mp hd with ⟨x, hx, h⟩ | ⟨x, -, h⟩
    · obtain ⟨c, -, rfl⟩ := List.mem_map.mp h
      have : x = e := document_eq hp hx he (by simpa using hs)
      rwa [← this]
    · obtain ⟨c, -, rfl⟩ := List.mem_map.mp h
      simp at hs
  · intro h
    obtain ⟨c, -, rfl⟩ := List.mem_map.mp h
    exact ⟨(mem_drafts_dependsOn rfl).mpr (.inl ⟨e, he, h⟩), rfl, rfl⟩

end Dependencies

section Requirements

variable {p : Plan}

/-- Whether a draft is a requirement of the node of a key. -/
def isRequirementOf (k : String) (d : Draft) : Bool :=
  decide (d.relation = .requires) && decide (d.source = k)

/-- The requirement of one policy by another one. -/
def requirement (policy t : String) : Draft :=
  ⟨Node.policyKey policy, Node.policyKey t, .requires, .plain⟩

theorem mem_firstTexts {seen xs : List String} {x : String} :
    x ∈ RuleSet.firstTexts seen xs ↔ x ∈ xs ∧ x ∉ seen := by
  induction xs generalizing seen with
  | nil => simp [RuleSet.firstTexts]
  | cons y r ih =>
      unfold RuleSet.firstTexts
      split
      · next hy => rw [ih]; grind
      · next hy => rw [List.mem_cons, ih]; grind

theorem firstTexts_nodup (seen xs : List String) : (RuleSet.firstTexts seen xs).Nodup := by
  induction xs generalizing seen with
  | nil => simp [RuleSet.firstTexts]
  | cons y r ih =>
      unfold RuleSet.firstTexts
      split
      · exact ih seen
      · refine List.nodup_cons.mpr ⟨fun h => ?_, ih _⟩
        exact (mem_firstTexts.mp h).2 (by simp)

/-- Where only one item of a list yields anything, the list yields what that item does. -/
theorem flatMap_eq_of_unique {α β : Type} {f : α → List β} {a : α} :
    ∀ {l : List α}, l.Nodup → a ∈ l → (∀ b ∈ l, b ≠ a → f b = []) → l.flatMap f = f a
  | b :: l, hn, ha, h => by
      obtain ⟨hb, hl⟩ := List.nodup_cons.mp hn
      rw [List.flatMap_cons]
      by_cases e : b = a
      · have hrest : l.flatMap f = [] :=
          List.flatMap_eq_nil_iff.mpr fun c hc =>
            h c (List.mem_cons_of_mem _ hc) fun e' => hb (e ▸ e' ▸ hc)
        rw [hrest, List.append_nil, e]
      · rw [h b (by simp) e, List.nil_append]
        exact flatMap_eq_of_unique hl (by simpa [Ne.symm e] using ha) fun c hc =>
          h c (List.mem_cons_of_mem _ hc)

theorem filter_mentionDrafts (d : Document) :
    (mentionDrafts d).filter (isRequirementOf (Node.policyKey d.policy)) =
      (RuleSet.firstTexts [] d.prerequisites).map (requirement d.policy) := by
  rw [mentionDrafts, List.filter_append, List.filter_eq_self.mpr, List.filter_eq_nil_iff.mpr,
    List.append_nil]
  · rfl
  · intro x hx h
    obtain ⟨t, -, rfl⟩ := List.mem_map.mp hx
    simp [isRequirementOf] at h
  · simp [isRequirementOf]

theorem not_isRequirementOf_ownDrafts {ds : List Document} {policy k : String} {h : Head}
    {d : Draft} (hd : d ∈ ownDrafts ds policy h) :
    isRequirementOf (Node.policyKey k) d = false := by
  unfold ownDrafts clauseDrafts operandDrafts at hd
  rw [isRequirementOf]
  have := Node.conditionKey_ne_policyKey
  grind

/-- The requirements of a policy, in the order of its document. -/
theorem filter_requirements (hp : p.IsSound) {d : Document} (hd : d ∈ p.documents) :
    p.drawn.filter (isRequirementOf (Node.policyKey d.policy)) =
      (RuleSet.firstTexts [] d.prerequisites).map (requirement d.policy) := by
  have clauses : (p.documents.flatMap fun d => d.clauses.map fun c =>
      (⟨Node.policyKey d.policy, Node.clauseKey c.id, .contains, .plain⟩ : Draft)).filter
        (isRequirementOf (Node.policyKey d.policy)) = [] := by
    refine List.filter_eq_nil_iff.mpr fun x hx => ?_
    simp only [List.mem_flatMap, List.mem_map] at hx
    obtain ⟨e, -, c, -, rfl⟩ := hx
    simp [isRequirementOf]
  have trees : (p.documents.flatMap fun e =>
      rootDrafts p.documents e.policy 0 (p.rootsOf e.policy)).filter
        (isRequirementOf (Node.policyKey d.policy)) = [] := by
    refine List.filter_eq_nil_iff.mpr fun x hx => ?_
    obtain ⟨e, -, hx⟩ := List.mem_flatMap.mp hx
    rcases (mem_rootDrafts _ _).mp hx with ⟨c, -, rfl⟩ | ⟨t, -, ht | ht⟩
    · simp [isRequirementOf]
    · simp [not_isRequirementOf_ownDrafts ht]
    · obtain ⟨c, -, rfl⟩ := List.mem_map.mp ht
      simp [isRequirementOf]
  have nodup : p.documents.Nodup := List.Nodup.of_map _ hp.policies
  have mentions : (p.documents.flatMap mentionDrafts).filter
      (isRequirementOf (Node.policyKey d.policy)) =
        (RuleSet.firstTexts [] d.prerequisites).map (requirement d.policy) := by
    rw [List.filter_flatMap, flatMap_eq_of_unique nodup hd, filter_mentionDrafts]
    intro e he hne
    refine List.filter_eq_nil_iff.mpr fun x hx h => hne ?_
    obtain ⟨-, hs⟩ : x.relation = .requires ∧ x.source = Node.policyKey d.policy := by
      simpa [isRequirementOf] using h
    rw [(relation_of_mem_mentionDrafts hx).2.2] at hs
    exact document_eq hp he hd (by simpa using hs)
  rw [drawn, Draft.filter_firsts _ [] (by simp), drafts, List.filter_append,
    List.filter_append, clauses, trees, mentions, List.nil_append, List.nil_append]
  refine Draft.firsts_eq_self ?_ (by simp)
  refine (List.nodup_map_iff ?_).mpr (firstTexts_nodup _ _)
  intro a b h
  simpa [requirement] using h

end Requirements

end Plan
end Eligibility
