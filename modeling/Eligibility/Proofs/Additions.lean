import Mathlib.Logic.Relation
import Eligibility.Proofs.Tallies
/-!
# Added rules

**Additions.**  A rule is added to a tree as a child of a conjunction or of a disjunction, or as a
logical rule around a rule.  Among top-level rules it is added beside them, or around one of them
with a clause of the same document.  The rules that were there keep their clauses and confidences.

**Tallies.**  What is tallied of rules is found again, in the same order, after an addition, and no
tree gets lower.  Therefore no count in the tally of a policy gets smaller; the clauses of the
policy stay the same.

**Results.**
* `Rule.Adds.within`, `RuleSet.Adds.within`: what one addition keeps.
* `RuleSet.GrowsTo.within`: what a run of additions keeps for every policy.
* `RuleSet.GrowsTo.tally_atMost`: the tallies of policies.
-/

namespace Eligibility

/-- What is tallied of a rule: whether it is logical, its clause and its confidence. -/
def Head.tallied (h : Head) : Bool × String × Option Number :=
  (h.operator.isLogical, h.clause, h.confidence)

namespace Rule

/-- The addition of a rule to a tree.  A rule that is kept may be stated in other words. -/
inductive Adds : Rule → Rule → Prop
  | restated {h k : Head} {cs : List Rule} (kept : h.tallied = k.tallied) :
      Adds (node h cs) (node k cs)
  | child {h : Head} {before after : List Rule} (r : Rule)
      (operator : h.operator = .and ∨ h.operator = .or) :
      Adds (node h (before ++ after)) (node h (before ++ r :: after))
  | around {k : Head} {r : Rule} (operator : k.operator.isLogical = true) : Adds r (node k [r])
  | inside {h : Head} {before after : List Rule} {c d : Rule} (added : Adds c d) :
      Adds (node h (before ++ c :: after)) (node h (before ++ d :: after))

/-- Whether what is tallied of trees is found again in others, which are no lower. -/
structure Within (rs ss : List Rule) : Prop where
  tallied : ((headsOf rs).map Head.tallied).Sublist ((headsOf ss).map Head.tallied)
  depth : depthOf rs ≤ depthOf ss

theorem depthOf_append (rs ss : List Rule) :
    depthOf (rs ++ ss) = max (depthOf rs) (depthOf ss) := by
  induction rs with
  | nil => simp [depthOf]
  | cons r rs ih => simp [depthOf, ih, max_assoc]

section Trees

variable {rs ss rs' ss' : List Rule}

theorem Within.refl (rs : List Rule) : Within rs rs := ⟨.refl _, le_rfl⟩

theorem Within.trans {ts : List Rule} (h : Within rs ss) (h' : Within ss ts) : Within rs ts :=
  ⟨h.tallied.trans h'.tallied, h.depth.trans h'.depth⟩

theorem Within.nil (ss : List Rule) : Within [] ss := ⟨List.nil_sublist _, Nat.zero_le _⟩

theorem Within.append (h : Within rs ss) (h' : Within rs' ss') :
    Within (rs ++ rs') (ss ++ ss') where
  tallied := by
    rw [headsOf_append, headsOf_append, List.map_append, List.map_append]
    exact h.tallied.append h'.tallied
  depth := by
    rw [depthOf_append, depthOf_append]
    exact max_le_max h.depth h'.depth

/-- A tree is kept, and so is what is among its children. -/
theorem Within.node {h k : Head} (hk : h.tallied = k.tallied) (hchildren : Within rs ss) :
    Within [node h rs] [node k ss] where
  tallied := by
    simp only [headsOf, heads, List.append_nil, List.map_cons, hk]
    exact hchildren.tallied.cons_cons _
  depth := by
    simp only [depthOf]
    exact max_le_max (Nat.succ_le_succ hchildren.depth) le_rfl

/-- A tree is found again below another rule. -/
theorem Within.around (k : Head) (rs : List Rule) : Within rs [Rule.node k rs] where
  tallied := by
    simp only [headsOf, heads, List.append_nil, List.map_cons]
    exact List.sublist_cons_self _ _
  depth := by
    simp only [depthOf]
    exact (Nat.le_succ _).trans (le_max_left _ _)

/-- An addition among the children of a rule keeps what was there. -/
theorem Within.insert (r : Rule) (before after : List Rule) :
    Within (before ++ after) (before ++ r :: after) :=
  (Within.refl before).append ((Within.nil [r]).append (Within.refl after))

theorem Within.replace {c d : Rule} (h : Within [c] [d]) (before after : List Rule) :
    Within (before ++ c :: after) (before ++ d :: after) :=
  (Within.refl before).append (h.append (Within.refl after))

/-- The addition of a rule to a tree keeps what was there. -/
theorem Adds.within {r u : Rule} (h : r.Adds u) : Within [r] [u] := by
  induction h with
  | restated kept => exact .node kept (.refl _)
  | child r _ => exact .node rfl (.insert r _ _)
  | around _ => exact .around _ _
  | inside _ ih => exact .node rfl (ih.replace _ _)

end Trees

end Rule

/-- Whether two clauses are the same one or of the same document. -/
def Document.Shared (ds : List Document) (c e : String) : Prop :=
  c = e ∨ ∃ d ∈ ds, d.lists c = true ∧ d.lists e = true

/-- Whether the counts of a tally are at most those of another one, for the same number of
clauses. -/
structure Tally.AtMost (t u : Tally) : Prop where
  comparisons : t.comparisons ≤ u.comparisons
  operators : t.operators ≤ u.operators
  depth : t.depth ≤ u.depth
  flags : t.flags ≤ u.flags
  links : t.links ≤ u.links
  clauses : t.clauses = u.clauses

theorem Tally.atMost_total {as : List String} {f g : String → Tally}
    (h : ∀ a ∈ as, (f a).AtMost (g a)) :
    (Tally.total (as.map f)).AtMost (Tally.total (as.map g)) := by
  constructor <;> simp only [total, List.map_map]
  · exact List.sum_le_sum fun a ha => (h a ha).comparisons
  · exact List.sum_le_sum fun a ha => (h a ha).operators
  · refine RuleSet.foldr_max_le_iff.mpr (List.forall_mem_map.mpr fun a ha => ?_)
    exact (h a ha).depth.trans (RuleSet.foldr_max_le_iff.mp le_rfl _ (List.mem_map_of_mem ha))
  · exact List.sum_le_sum fun a ha => (h a ha).flags
  · exact List.sum_le_sum fun a ha => (h a ha).links
  · exact congrArg List.sum (List.map_congr_left fun a ha => (h a ha).clauses)

namespace RuleSet

/-- The addition of a rule to the trees of a rule set with documents. -/
inductive Adds (ds : List Document) : List Rule → List Rule → Prop
  | beside {before after : List Rule} (r : Rule) : Adds ds (before ++ after) (before ++ r :: after)
  | within {before after : List Rule} {r u : Rule} (added : r.Adds u)
      (shared : Document.Shared ds r.head.clause u.head.clause) :
      Adds ds (before ++ r :: after) (before ++ u :: after)

/-- Whether additions of rules lead from a rule set with documents to another one. -/
structure GrowsTo (s t : RuleSet) : Prop where
  declared : s.documents ≠ []
  documents : t.documents = s.documents
  rules : Relation.ReflTransGen (Adds s.documents) s.rules t.rules

variable {s t : RuleSet} {a : String} {rs ss : List Rule}

section Trees

/-- The addition of a rule keeps what was there in the trees of a kind, where the kind of a tree
depends on its document only. -/
theorem Adds.within_filter {ds : List Document} {P : Rule → Bool}
    (hP : ∀ r u : Rule, Document.Shared ds r.head.clause u.head.clause → P r = P u)
    (h : Adds ds rs ss) : Rule.Within (rs.filter P) (ss.filter P) := by
  cases h with
  | beside r =>
      rw [List.filter_append, List.filter_append, List.filter_cons]
      split
      · exact .insert r _ _
      · exact .refl _
  | @within _ _ r u added shared =>
      rw [List.filter_append, List.filter_append, List.filter_cons, List.filter_cons,
        hP r u shared]
      split
      · exact added.within.replace _ _
      · exact .refl _

/-- Top-level rules that cite clauses of one document belong to the same policies. -/
theorem assigns_of_shared (hs : s.IsAccepted) (hdeclared : s.documents ≠ []) {r u : Rule}
    (h : Document.Shared s.documents r.head.clause u.head.clause) :
    s.assigns a r = s.assigns a u := by
  have hiff : ∀ v : Rule,
      s.assigns a v = true ↔ (v.head.clause, a) ∈ ownedClauses s.documents := by
    intro v
    rw [assigns, if_neg (by simpa using hdeclared), List.any_eq_true, mem_ownedClauses]
    simp [Document.lists]
  rw [Bool.eq_iff_iff, hiff, hiff]
  rcases h with heq | ⟨d, hd, hr, hu⟩
  · rw [heq]
  · have howner : ∀ c, d.lists c = true → ((c, a) ∈ ownedClauses s.documents ↔ d.policy = a) := by
      intro c hc
      have hown := mem_ownedClauses.mpr ⟨d, hd, rfl, hc⟩
      refine ⟨fun ha => ?_, fun ha => ha ▸ hown⟩
      exact congrArg Prod.snd (List.inj_on_of_nodup_map hs.clauses hown ha rfl)
    rw [howner _ hr, howner _ hu]

/-- What is tallied of a policy is found again after a run of additions. -/
theorem GrowsTo.within (h : s.GrowsTo t) (hs : s.IsAccepted) (a : String) :
    Rule.Within (s.treesOf a) (t.treesOf a) := by
  have hassigns : t.assigns a = s.assigns a := by
    funext r
    rw [assigns, assigns, h.documents]
  have hrun := h.rules
  rw [treesOf, treesOf, hassigns]
  generalize t.rules = ss at hrun ⊢
  induction hrun with
  | refl => exact .refl _
  | tail _ hstep ih =>
      exact ih.trans (hstep.within_filter fun r u => assigns_of_shared hs h.declared)

end Trees

section Counts

theorem countP_rulesOf (P : Bool × String × Option Number → Bool) :
    (s.rulesOf a).countP (fun r => P r.head.tallied) =
      ((Rule.headsOf (s.treesOf a)).map Head.tallied).countP P := by
  simp only [rulesOf, Rule.headsOf_eq_map_walkAll, List.countP_map, Function.comp_def]

theorem GrowsTo.countP_le (h : s.GrowsTo t) (hs : s.IsAccepted)
    (P : Bool × String × Option Number → Bool) :
    (s.rulesOf a).countP (fun r => P r.head.tallied) ≤
      (t.rulesOf a).countP fun r => P r.head.tallied := by
  rw [countP_rulesOf, countP_rulesOf]
  exact (h.within hs a).tallied.countP_le

/-- The clauses that a policy cites are cited after a run of additions. -/
theorem GrowsTo.citedBy_subset (h : s.GrowsTo t) (hs : s.IsAccepted) :
    s.citedBy a ⊆ t.citedBy a := by
  have hclauses : ∀ u : RuleSet, (u.rulesOf a).map (fun r => r.head.clause) =
      ((Rule.headsOf (u.treesOf a)).map Head.tallied).map fun x => x.2.1 := by
    intro u
    rw [rulesOf, Rule.headsOf_eq_map_walkAll, List.map_map, List.map_map]
    rfl
  intro c hc
  rw [citedBy, List.mem_eraseDups, hclauses] at hc ⊢
  exact ((h.within hs a).tallied.map _).subset hc

/-- A run of additions keeps what is said of clauses and links, but for the clauses of others that
a policy cites, of which there are no fewer. -/
theorem GrowsTo.links_le (h : s.GrowsTo t) (hs : s.IsAccepted) :
    (s.requirements a).length + (s.applications a).length + (s.foreignClauses a).length ≤
      (t.requirements a).length + (t.applications a).length + (t.foreignClauses a).length := by
  have hholder : t.holder? = s.holder? := by
    funext c
    simp only [holder?, h.documents]
    rw [if_neg (by simpa using h.declared), if_neg (by simpa using h.declared)]
  have hforeign : (s.foreignClauses a).length ≤ (t.foreignClauses a).length := by
    refine ((nodup_citedBy.filter _).subperm fun c hc => ?_).length_le
    rw [foreignClauses, List.mem_filter] at *
    rw [hholder]
    exact ⟨h.citedBy_subset hs hc.1, hc.2⟩
  simp only [requirements, applications, h.documents]
  exact Nat.add_le_add_left hforeign _

theorem GrowsTo.clausesOwnedBy_eq (h : s.GrowsTo t) :
    t.clausesOwnedBy a = s.clausesOwnedBy a := by
  rw [clausesOwnedBy, clausesOwnedBy, h.documents, if_neg (by simpa using h.declared),
    if_neg (by simpa using h.declared)]

/-- No count in the tally of a policy gets smaller in a run of additions. -/
theorem GrowsTo.tally_atMost (h : s.GrowsTo t) (hs : s.IsAccepted) (cfg : Settings) (a : String) :
    (s.tally a cfg).AtMost (t.tally a cfg) where
  comparisons := h.countP_le hs fun x => !x.1
  operators := h.countP_le hs fun x => x.1
  depth := (h.within hs a).depth
  flags := by
    have hlow := h.countP_le (a := a) hs fun x => x.2.2.any fun y => y.lt cfg.extractionThreshold
    simp only [tally, h.clausesOwnedBy_eq]
    exact Nat.add_le_add_right hlow _
  links := h.links_le hs
  clauses := by simp only [tally, h.clausesOwnedBy_eq]

end Counts

end RuleSet
end Eligibility
