import Eligibility.Proofs.ClauseOwners
import Eligibility.Proofs.FaithfulCopies
/-!
# What rule sets hold for their policies

**Tallies.**  For each policy a rule set says how many comparisons and logical rules its trees
have, how deep they are, how many of its rules and clauses are flagged, how many other policies and
clauses it refers to and how many clauses it owns.

**Totals.**  Every rule and every clause belongs to one policy, so that the counts of all policies
sum up to those of the rule set.

**Results.**
* `clauses_perm`: the clauses of the policies are those of the rule set.
* `total_tally`: the tally of all policies.
-/

namespace Eligibility

/-- Counts over the rules and the clauses of policies. -/
structure Tally where
  comparisons : Nat
  operators : Nat
  depth : Nat
  flags : Nat
  links : Nat
  clauses : Nat
  deriving DecidableEq

/-- The tallies of several policies in one: the sums of the counts, and the largest depth. -/
def Tally.total (ts : List Tally) : Tally where
  comparisons := (ts.map Tally.comparisons).sum
  operators := (ts.map Tally.operators).sum
  depth := (ts.map Tally.depth).foldr max 0
  flags := (ts.map Tally.flags).sum
  links := (ts.map Tally.links).sum
  clauses := (ts.map Tally.clauses).sum

/-- A filter that only one item passes keeps it. -/
theorem filter_eq_singleton {α : Type} {P : α → Bool} {xs : List α} (hxs : xs.Nodup) {x : α}
    (hx : x ∈ xs) (h : ∀ y ∈ xs, P y = true ↔ y = x) : xs.filter P = [x] := by
  refine List.perm_singleton.mp ((List.perm_ext_iff_of_nodup (hxs.filter P)
    (List.nodup_singleton x)).mpr fun y => ?_)
  rw [List.mem_filter, List.mem_singleton]
  exact ⟨fun hy => (h y hy.1).mp hy.2, fun hy => hy ▸ ⟨hx, (h x hx).mpr rfl⟩⟩

namespace RuleSet

section Definitions

variable (s : RuleSet) (a : String)

/-- The top-level rules of a policy. -/
def treesOf : List Rule := s.rules.filter (s.assigns a)

/-- The rules in the trees of a policy. -/
def rulesOf : List Rule := Rule.walkAll (s.treesOf a)

/-- The clauses that the rules of a policy cite, each once. -/
def citedBy : List String := ((s.rulesOf a).map fun r => r.head.clause).eraseDups

/-- The clauses of a policy: those of its document; without documents those that its tree cites and
that of no earlier policy does. -/
def clausesOwnedBy : List Clause :=
  if s.documents.isEmpty then
    ((s.citedBy a).filter fun c => s.holder? c = some a).map fun c => { id := c }
  else (s.documents.filter fun d => d.policy = a).flatMap Document.clauses

/-- The other policies that the document of a policy applies to, each once. -/
def applications : List String :=
  ((s.documents.filter fun d => d.policy = a).flatMap fun d =>
    d.appliesTo.eraseDups).filter fun t => t ≠ a

/-- The clauses of other policies that the rules of a policy cite, each once. -/
def foreignClauses : List String :=
  (s.citedBy a).filter fun c => (s.holder? c).any fun b => b ≠ a

/-- What a rule set holds for a policy. -/
def tally (cfg : Settings) : Tally where
  comparisons := (s.rulesOf a).countP fun r => !r.operator.isLogical
  operators := (s.rulesOf a).countP fun r => r.operator.isLogical
  depth := Rule.depthOf (s.treesOf a)
  flags := (s.rulesOf a).countP (fun r => Plan.isLow cfg r.head) +
    (s.clausesOwnedBy a).countP Clause.ambiguous
  links := (s.requirements a).length + (s.applications a).length + (s.foreignClauses a).length
  clauses := (s.clausesOwnedBy a).length

/-- The clauses of a rule set: those of its documents, or else those that its rules cite, each
once. -/
def clauses : List Clause :=
  if s.documents.isEmpty then
    (((Rule.walkAll s.rules).map fun r => r.head.clause).eraseDups).map fun c => { id := c }
  else s.documents.flatMap Document.clauses

end Definitions

/-- Whether a tally counts all rules and clauses of a rule set, each once. -/
structure IsCountedBy (s : RuleSet) (cfg : Settings) (t : Tally) : Prop where
  comparisons : t.comparisons = (Rule.walkAll s.rules).countP fun r => !r.operator.isLogical
  operators : t.operators = (Rule.walkAll s.rules).countP fun r => r.operator.isLogical
  depth : t.depth = Rule.depthOf s.rules
  flags : t.flags = (Rule.walkAll s.rules).countP (fun r => Plan.isLow cfg r.head) +
    s.clauses.countP Clause.ambiguous
  clauses : t.clauses = s.clauses.length

variable {s : RuleSet} {a c : String}

section Members

theorem mem_rulesOf {r : Rule} :
    r ∈ s.rulesOf a ↔ ∃ t ∈ s.rules, s.assigns a t = true ∧ r ∈ t.walk := by
  simp only [rulesOf, treesOf, Rule.mem_walkAll, List.mem_filter, and_assoc]

theorem mem_citedBy : c ∈ s.citedBy a ↔ ∃ r ∈ s.rulesOf a, r.head.clause = c := by
  rw [citedBy, List.mem_eraseDups, List.mem_map]

theorem firstTexts_nil (xs : List String) : firstTexts [] xs = xs.eraseDups := by
  simp [firstTexts_eq]

theorem nodup_eraseDups_texts (xs : List String) : xs.eraseDups.Nodup :=
  firstTexts_nil xs ▸ Plan.firstTexts_nodup [] xs

theorem nodup_citedBy : (s.citedBy a).Nodup := nodup_eraseDups_texts _

end Members

section Partitions

/-- Every rule is in a tree of one policy. -/
theorem rules_perm (hs : s.IsAccepted) :
    (s.policies.flatMap s.rulesOf).Perm (Rule.walkAll s.rules) := by
  obtain ⟨p, hp⟩ := exists_plan hs
  have hplaced := placed_perm hs hp
  rw [Plan.placed_eq hs hp, ownedRules, List.map_flatMap] at hplaced
  simp only [List.map_map, Function.comp_def, List.map_id'] at hplaced
  exact hplaced

/-- Without documents a policy cites the clauses that it owns. -/
theorem mem_citedBy_of_holder? (hnone : s.documents = []) (hc : s.holder? c = some a) :
    c ∈ s.citedBy a := by
  obtain ⟨t, ht, rfl, hcites⟩ := exists_of_holder? hnone hc
  rw [Rule.cites_iff, Rule.heads_eq_map_walk, List.map_map] at hcites
  obtain ⟨u, hu, hclause⟩ := List.mem_map.mp hcites
  exact mem_citedBy.mpr ⟨u, mem_rulesOf.mpr ⟨t, ht, by simp [assigns, hnone], hu⟩, hclause⟩

/-- Without documents a policy owns the clauses that its tree cites first. -/
theorem mem_owned_iff (hs : s.IsAccepted) (hnone : s.documents = []) :
    (∃ a ∈ s.policies, c ∈ (s.citedBy a).filter fun c => s.holder? c = some a) ↔
      ∃ r ∈ Rule.walkAll s.rules, r.head.clause = c := by
  constructor
  · rintro ⟨a, -, hc⟩
    obtain ⟨r, hr, hclause⟩ := mem_citedBy.mp (List.mem_filter.mp hc).1
    obtain ⟨t, ht, -, hrt⟩ := mem_rulesOf.mp hr
    exact ⟨r, Rule.mem_walkAll.mpr ⟨t, ht, hrt⟩, hclause⟩
  · rintro ⟨r, hr, rfl⟩
    obtain ⟨a, ha⟩ := exists_holder hs (head_mem_heads hr)
    refine ⟨a, ?_, List.mem_filter.mpr ⟨mem_citedBy_of_holder? hnone ha, by simp [ha]⟩⟩
    obtain ⟨t, ht, rfl, -⟩ := exists_of_holder? hnone ha
    rw [policies, hnone, List.isEmpty_nil, if_pos rfl]
    exact List.mem_map_of_mem ht

theorem nodup_policies (hs : s.IsAccepted) : s.policies.Nodup := by
  unfold policies
  split
  · exact rules_ids_nodup hs
  · exact hs.policies

/-- The only document of a policy. -/
theorem filter_policy {ds : List Document} (hds : (ds.map Document.policy).Nodup) {d : Document}
    (hd : d ∈ ds) : (ds.filter fun e => e.policy = d.policy) = [d] := by
  refine filter_eq_singleton (hds.of_map _) hd fun e he => ?_
  rw [decide_eq_true_eq]
  exact ⟨fun heq => List.inj_on_of_nodup_map hds he hd heq, fun heq => heq ▸ rfl⟩

/-- Every clause belongs to one policy. -/
theorem clauses_perm (hs : s.IsAccepted) :
    (s.policies.flatMap s.clausesOwnedBy).Perm s.clauses := by
  unfold clauses clausesOwnedBy
  by_cases hnone : s.documents = []
  · simp only [hnone, List.isEmpty_nil, if_true]
    rw [← List.map_flatMap]
    refine List.Perm.map _ ((List.perm_ext_iff_of_nodup ?_
      (nodup_eraseDups_texts _)).mpr fun c => ?_)
    · refine List.nodup_flatMap.mpr ⟨fun a _ => nodup_citedBy.filter _, ?_⟩
      refine (nodup_policies hs).imp fun hab c hc hc' => hab ?_
      have ha := of_decide_eq_true (List.mem_filter.mp hc).2
      have hb := of_decide_eq_true (List.mem_filter.mp hc').2
      exact Option.some.inj (ha.symm.trans hb)
    · rw [List.mem_flatMap, mem_owned_iff hs hnone, List.mem_eraseDups, List.mem_map]
  · have hempty : s.documents.isEmpty = false := by simpa using hnone
    simp only [hempty, Bool.false_eq_true, if_false, policies]
    rw [List.flatMap_map]
    refine .of_eq (List.flatMap_congr fun d hd => ?_)
    rw [filter_policy hs.policies hd, List.flatMap_singleton]

end Partitions

section Totals

theorem exists_assigns (hs : s.IsAccepted) {r : Rule} (hr : r ∈ s.rules) :
    ∃ a ∈ s.policies, s.assigns a r = true := by
  obtain ⟨p, hp⟩ := exists_checkedPlan hs
  exact (existsUnique_assigns hs (checkedPlan_spec hp).1 (isSound_of_checkedPlan hs hp) hr).exists

theorem depthOf_le_iff {rs : List Rule} {n : Nat} :
    Rule.depthOf rs ≤ n ↔ ∀ r ∈ rs, r.depth ≤ n := by
  induction rs with
  | nil => simp [Rule.depthOf]
  | cons r rs ih => simp [Rule.depthOf, ih]

theorem foldr_max_le_iff {ns : List Nat} {n : Nat} :
    ns.foldr max 0 ≤ n ↔ ∀ k ∈ ns, k ≤ n := by
  induction ns with
  | nil => simp
  | cons k ns ih => simp [ih]

/-- The tallies of all policies count all rules and clauses of an accepted rule set. -/
theorem total_tally (hs : s.IsAccepted) (cfg : Settings) :
    s.IsCountedBy cfg (Tally.total (s.policies.map fun a => s.tally a cfg)) := by
  have hrules := fun P : Rule → Bool => (rules_perm hs).countP_eq P
  have hclauses := clauses_perm hs
  simp only [List.countP_flatMap] at hrules
  constructor <;> simp only [Tally.total, List.map_map]
  · exact hrules _
  · exact hrules _
  · refine eq_of_forall_ge_iff fun n => ?_
    rw [foldr_max_le_iff, depthOf_le_iff, List.forall_mem_map]
    refine ⟨fun h r hr => ?_, fun h a _ => depthOf_le_iff.mpr fun r hr => ?_⟩
    · obtain ⟨a, ha, hassigned⟩ := exists_assigns hs hr
      exact depthOf_le_iff.mp (h a ha) r (List.mem_filter.mpr ⟨hr, hassigned⟩)
    · exact h r (List.mem_filter.mp hr).1
  · rw [← hrules, ← hclauses.countP_eq, List.countP_flatMap, ← List.sum_map_add]
    rfl
  · rw [← hclauses.length_eq, List.length_flatMap]
    rfl

end Totals

end RuleSet
end Eligibility
