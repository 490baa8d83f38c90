import Eligibility.Proofs.Scopes
/-!
# Candidates of graphs that can be read

**Soundness.**  A candidate is sound where it names nodes, clauses and policies by texts,
and its policies are policies of the graph.  In a graph that can be read every pass gives
its candidates, and they are sound.

**Results.**
* `exists_contradictions`, `exists_exclusions`, `exists_impossibilities`: three passes.
-/

namespace Eligibility

/-- A candidate that names nodes and policies of a graph, and clauses, by texts, and is about a
condition unless it is about dependencies. -/
structure Candidate.IsSound (g : PolicyGraph) (k : ConflictKind) (c : Candidate) : Prop where
  kind : c.kind = k
  condition : k = .circularity ∨ ∃ n ∈ g.nodes, n.kind = .condition
  nodes : ∀ n ∈ c.nodes, ∃ s, n = .str s ∧ g.hasNode (.str s) = true
  clauses : ∀ n ∈ c.clauses, ∃ s, n = .str s
  policies : ∀ n ∈ c.policies, ∃ s, n = .str s ∧ g.HasPolicy s

namespace PolicyGraph

variable {g : PolicyGraph}

/-- A literal on a condition without operands is on a comparison. -/
theorem IsLegible.isComparison (h : g.IsLegible) {l : Literal} (hl : l.IsOn g) :
    l.node.IsComparison :=
  h.leaf l.node hl.node hl.leaf

/-- A candidate of two literals is sound. -/
theorem IsLegible.isSound_of_pair (h : g.IsLegible) {k : ConflictKind} {c : Candidate}
    {a b : Literal} (ha : a.IsOn g) (hb : b.IsOn g) (hkind : c.kind = k)
    (hnodes : ∀ n ∈ c.nodes, n = a.node.id ∨ n = b.node.id)
    (hclauses : c.clauses = [a.clause, b.clause])
    (hpolicies : ∀ n ∈ c.policies, ∃ s, n = .str s ∧ g.HasPolicy s) : c.IsSound g k := by
  refine ⟨hkind, .inr ⟨a.node, ha.node, ?_⟩, fun n hn => ?_, fun n hn => ?_, hpolicies⟩
  · exact Node.kind_of_isLeaf ha.leaf
  · have hnode : ∀ {l : Literal}, l.IsOn g →
        ∃ s, l.node.id = .str s ∧ g.hasNode (.str s) = true := by
      intro l hl
      obtain ⟨s, hs⟩ := h.ids l.node hl.node
      exact ⟨s, hs, hasNode_of_node? (h.node?_of_mem hl.node hs)⟩
    rcases hnodes n hn with rfl | rfl
    · exact hnode ha
    · exact hnode hb
  · rw [hclauses] at hn
    rcases List.mem_pair.mp hn with rfl | rfl
    · exact (h.isComparison ha).exists_clause
    · exact (h.isComparison hb).exists_clause

section Contradictions

theorem IsLegible.exists_contradictionCandidate (h : g.IsLegible) {policy : String}
    (hpolicy : g.HasPolicy policy) {leaf other : Literal} (hleaf : leaf.IsOn g)
    (hother : other.IsOn g) {a b : Name}
    (hab : ∀ n ∈ [a, b], n = leaf.node.id ∨ n = other.node.id) :
    ∃ c, contradictionCandidate (.str policy) a b leaf other = .ok c ∧
      c.IsSound g .contradiction := by
  obtain ⟨s, hs⟩ := (h.isComparison hleaf).exists_describe
  obtain ⟨t, ht⟩ := (h.isComparison hother).exists_describe
  obtain ⟨e, he⟩ := (h.isComparison hleaf).exists_evidence
  obtain ⟨f, hf⟩ := (h.isComparison hother).exists_evidence
  simp only [contradictionCandidate, hs, ht, he, hf, Attempt.ok_bind]
  refine ⟨_, rfl, h.isSound_of_pair hleaf hother rfl hab rfl fun n hn => ?_⟩
  exact ⟨policy, List.mem_singleton.mp hn, hpolicy⟩

theorem IsLegible.exists_contradictionStep (h : g.IsLegible) {policy : String}
    (hpolicy : g.HasPolicy policy) {leaf other : Literal} (hleaf : leaf.IsOn g)
    (hother : other.IsOn g)
    {s : PairSearch} (hs : ∀ c ∈ s.found, c.IsSound g .contradiction) :
    ∃ s', contradictionStep (.str policy) leaf s other = .ok s' ∧
      ∀ c ∈ s'.found, c.IsSound g .contradiction := by
  have hleafNode := h.isComparison hleaf
  have hotherNode := h.isComparison hother
  obtain ⟨x, hx⟩ := hleafNode.exists_id
  obtain ⟨y, hy⟩ := hotherNode.exists_id
  obtain ⟨u, v, hsorted, hperm⟩ := Name.exists_sorted_pair x y
  rw [← hx, ← hy] at hsorted
  have hmem : ∀ n ∈ [Json.str u, .str v], n = leaf.node.id ∨ n = other.node.id := by
    intro n hn
    obtain ⟨z, hz, rfl⟩ := List.mem_map.mp (show n ∈ [u, v].map .str from hn)
    rw [hx, hy, Json.str.injEq, Json.str.injEq]
    exact List.mem_pair.mp (hperm.mem_iff.mp hz)
  obtain ⟨k, -, hk, -⟩ := hleafNode.exists_condition
  obtain ⟨l, -, hl, -⟩ := hotherNode.exists_condition
  obtain ⟨b, hb⟩ := Condition.exists_jointly (hleafNode.isFitting hk) (hotherNode.isFitting hl)
  obtain ⟨c, hc, hsound⟩ := h.exists_contradictionCandidate hpolicy hleaf hother hmem
  rw [contradictionStep, hsorted, Attempt.ok_bind]
  dsimp only
  split
  · exact ⟨s, rfl, hs⟩
  rw [hk, Attempt.ok_bind, hl, Attempt.ok_bind, hb, Attempt.ok_bind]
  split
  · exact ⟨s, rfl, hs⟩
  refine ⟨⟨s.seen ++ [(.str u, .str v)], s.found ++ [c]⟩, by rw [hc]; rfl, fun x hx => ?_⟩
  rcases List.mem_append.mp hx with hx | hx
  · exact hs x hx
  · rwa [List.mem_singleton.mp hx]

/-- Pairs of conditions that cannot hold together are found. -/
theorem IsLegible.exists_contradictions (h : g.IsLegible) :
    ∃ cs, g.contradictions = .ok cs ∧ ∀ c ∈ cs, c.IsSound g .contradiction := by
  have hsearch : ∃ s, (g.policyIds false).foldlM g.contradictionPolicy {} = .ok s ∧
      ∀ c ∈ s.found, c.IsSound g .contradiction := by
    refine Attempt.exists_foldlM (P := fun s : PairSearch => ∀ c ∈ s.found, c.IsSound g _)
      (List.forall_mem_nil _) fun s hs policy hpolicy => ?_
    obtain ⟨ps, hps⟩ := h.paths policy hpolicy
    obtain ⟨a, rfl, ha⟩ := h.exists_of_mem_policyIds hpolicy
    rw [contradictionPolicy, hps, Attempt.ok_bind]
    refine Attempt.exists_foldlM hs fun s hs x hx => ?_
    obtain ⟨hleaf, hcontext⟩ := List.forall_mem_cons.mp (isOn_of_paths hps x hx)
    refine Attempt.exists_foldlM hs fun s hs l hl => ?_
    exact h.exists_contradictionStep ha hleaf (hcontext l (List.mem_of_mem_filter hl)) hs
  obtain ⟨s, hs, hsound⟩ := hsearch
  exact ⟨s.found, by rw [contradictions, hs, Attempt.map_ok], hsound⟩

end Contradictions

section Exclusions

/-- A literal on a condition without operands, with a policy. -/
structure Demand.IsOn (g : PolicyGraph) (d : Demand) : Prop where
  literal : d.literal.IsOn g
  policy : ∃ s, d.policy = .str s ∧ g.HasPolicy s

/-- What holds of the pairs of a list holds of each item with the later ones. -/
theorem forall_mem_pairsOf {α : Type} {R : α → α → Prop} {xs : List α} :
    (∀ x ∈ pairsOf xs, R x.1 x.2) ↔ xs.Pairwise R := by
  induction xs with
  | nil => simp [pairsOf]
  | cons x r ih =>
      rw [List.pairwise_cons, ← ih, pairsOf, List.forall_mem_append, List.forall_mem_map]

theorem mem_of_mem_pairsOf {α : Type} {xs : List α} {x : α × α} (hx : x ∈ pairsOf xs) :
    x.1 ∈ xs ∧ x.2 ∈ xs := by
  have hpairs : xs.Pairwise fun a b => a ∈ xs ∧ b ∈ xs :=
    List.pairwise_of_forall_mem_list fun a ha b hb => ⟨ha, hb⟩
  exact forall_mem_pairsOf.mpr hpairs x hx

/-- Of two items of a list one stands before the other one. -/
theorem mem_pairsOf_of_ne {α : Type} {xs : List α} {x y : α} (hx : x ∈ xs) (hy : y ∈ xs)
    (hne : x ≠ y) : (x, y) ∈ pairsOf xs ∨ (y, x) ∈ pairsOf xs := by
  induction xs with
  | nil => simp at hx
  | cons z r ih =>
      simp only [pairsOf, List.mem_append, List.mem_map, Prod.mk.injEq]
      rcases List.mem_cons.mp hx with rfl | hxr
      · have hyr : y ∈ r := (List.mem_cons.mp hy).resolve_left (Ne.symm hne)
        exact .inl (.inl ⟨y, hyr, rfl, rfl⟩)
      · rcases List.mem_cons.mp hy with rfl | hyr
        · exact .inr (.inl ⟨x, hxr, rfl, rfl⟩)
        · exact (ih hxr hyr).imp .inr .inr

theorem IsLegible.exists_demandTable (h : g.IsLegible) :
    ∃ table, g.demandTable = .ok table ∧ ∀ k, ∀ d ∈ table.members k, d.IsOn g := by
  have hdemands : ∀ policy ∈ g.policyIds false,
      ∃ ds, g.demandsOf policy = .ok ds ∧ ∀ d ∈ ds, d.IsOn g := by
    intro policy hpolicy
    obtain ⟨ls, hls⟩ := h.requirements policy hpolicy
    refine ⟨_, by rw [demandsOf, hls, Attempt.map_ok], fun d hd => ?_⟩
    obtain ⟨l, hl, rfl⟩ := List.mem_map.mp hd
    exact ⟨isOn_of_requirements hls l hl, h.exists_of_mem_policyIds hpolicy⟩
  obtain ⟨parts, hparts, hon⟩ := Attempt.exists_mapM_flatten hdemands
  refine ⟨_, by rw [demandTable, hparts]; rfl, fun k d hd => ?_⟩
  obtain ⟨q, hq, hdq⟩ := Grouping.mem_of_mem_members hd
  exact hon d ((Grouping.areOf_ofList _ _ q hq).2.1.subset hdq)

/-- The variables of conditions are texts. -/
theorem IsLegible.exists_subjects (h : g.IsLegible) :
    ∃ xs : List String, g.subjects = .ok (xs.map .str) ∧
      ∀ x, ∀ n ∈ g.conditionsOn (.str x), x ∈ xs := by
  have hnames : ∀ n ∈ g.index.byVariable.names, ∃ s, n = Json.str s := by
    intro n hn
    obtain ⟨q, hq, rfl⟩ := List.mem_map.mp hn
    rw [g.indexed] at hq
    obtain ⟨⟨x, hx, hname⟩, -⟩ := Grouping.areOf_ofList _ _ q hq
    unfold Node.subject? at hname
    split at hname
    next hleaf =>
      obtain ⟨s, hs⟩ := (h.leaf x hx hleaf).exists_subject
      exact ⟨s, (Option.some.inj hname).symm.trans hs⟩
    · cases hname
  obtain ⟨xs, hxs⟩ := Name.exists_strs hnames
  refine ⟨Name.sortTexts xs, by rw [subjects, hxs, Name.sorted_strs], fun x n hn => ?_⟩
  have hname := Grouping.mem_names_of_mem_members hn
  rw [hxs] at hname
  exact (Name.sortTexts_perm xs).mem_iff.mpr (by simpa using hname)

theorem IsLegible.exists_exclusionPair (h : g.IsLegible) (subject : Name) {a b : Demand}
    (ha : a.IsOn g) (hb : b.IsOn g) :
    ∃ cs, g.exclusionPair subject a b = .ok cs ∧ ∀ c ∈ cs, c.IsSound g .exclusion := by
  have hfirst := h.isComparison ha.literal
  have hsecond := h.isComparison hb.literal
  obtain ⟨c, -, hc, -⟩ := hfirst.exists_condition
  obtain ⟨d, -, hd, -⟩ := hsecond.exists_condition
  obtain ⟨x, hx⟩ := Condition.exists_jointly (hfirst.isFitting hc) (hsecond.isFitting hd)
  obtain ⟨s, hs⟩ := hfirst.exists_describe
  obtain ⟨t, ht⟩ := hsecond.exists_describe
  obtain ⟨e, he⟩ := hfirst.exists_evidence
  obtain ⟨f, hf⟩ := hsecond.exists_evidence
  obtain ⟨u, hu, hpolicyU⟩ := ha.policy
  obtain ⟨v, hv, hpolicyV⟩ := hb.policy
  obtain ⟨links, hlinks, -⟩ := h.exists_linkedBy hpolicyU hpolicyV
  rw [exclusionPair]
  split
  · exact ⟨[], rfl, List.forall_mem_nil _⟩
  rw [hc, Attempt.ok_bind, hd, Attempt.ok_bind, hx, Attempt.ok_bind]
  split
  · exact ⟨[], rfl, List.forall_mem_nil _⟩
  simp only [exclusionCandidate, hu, hv, hlinks, hs, ht, he, hf, Attempt.ok_bind]
  refine ⟨_, rfl, fun c hc => ?_⟩
  rw [List.mem_singleton.mp hc]
  refine h.isSound_of_pair ha.literal hb.literal rfl (fun n hn => List.mem_pair.mp hn) rfl ?_
  intro n hn
  rcases List.mem_pair.mp hn with rfl | rfl
  · exact ⟨u, rfl, hpolicyU⟩
  · exact ⟨v, rfl, hpolicyV⟩

/-- Requirements of two policies that cannot hold together are found. -/
theorem IsLegible.exists_exclusions (h : g.IsLegible) :
    ∃ cs, g.exclusions = .ok cs ∧ ∀ c ∈ cs, c.IsSound g .exclusion := by
  obtain ⟨table, htable, hmembers⟩ := h.exists_demandTable
  obtain ⟨subjects, hsubjects, -⟩ := h.exists_subjects
  have hon : ∀ subject ∈ subjects.map Json.str,
      ∃ cs, g.exclusionsOn table subject = .ok cs ∧ ∀ c ∈ cs, c.IsSound g .exclusion := by
    intro subject _
    have hmember : ∀ d ∈ (g.conditionsOn subject).flatMap fun n => table.members n.id,
        d.IsOn g := by
      intro d hd
      obtain ⟨n, -, hd⟩ := List.mem_flatMap.mp hd
      exact hmembers n.id d hd
    obtain ⟨parts, hparts, hsound⟩ := Attempt.exists_mapM_flatten fun x hx =>
      h.exists_exclusionPair subject (hmember _ (mem_of_mem_pairsOf hx).1)
        (hmember _ (mem_of_mem_pairsOf hx).2)
    exact ⟨parts.flatten, by rw [exclusionsOn, hparts]; rfl, hsound⟩
  obtain ⟨parts, hparts, hsound⟩ := Attempt.exists_mapM_flatten hon
  refine ⟨parts.flatten, ?_, hsound⟩
  rw [exclusions, htable, Attempt.ok_bind, hsubjects, Attempt.ok_bind, hparts]
  rfl

end Exclusions

section Impossibilities

variable {table : List Impossibility}

theorem IsLegible.exists_implying (h : g.IsLegible) {k : Constraint} (hk : k.IsFitting)
    {ls : List Literal} (hls : ∀ l ∈ ls, l.IsOn g) :
    ∃ ms, implying k ls = .ok ms ∧ ∀ l ∈ ms, l.IsOn g := by
  have hanswer : ∀ l ∈ ls, ∃ b, (do
      let d ← l.condition
      d.implies (Condition.ofConstraint k) : Except Fault Bool) = .ok b := by
    intro l hl
    have hnode := h.isComparison (hls l hl)
    obtain ⟨j, -, hj, -⟩ := hnode.exists_condition
    obtain ⟨b, hb⟩ := Condition.exists_implies (hnode.isFitting hj) ⟨k, hk, rfl⟩
    exact ⟨b, by rw [hj]; exact hb⟩
  obtain ⟨ms, hms, hsub⟩ := Attempt.exists_filterM hanswer
  exact ⟨ms, hms, fun l hl => hls l (hsub hl)⟩

theorem IsLegible.exists_impossibilityPair (h : g.IsLegible) {policy : String}
    (hpolicy : g.HasPolicy policy) {entry : Nat} {i : Impossibility} {x : Literal × Literal}
    (ha : x.1.IsOn g) (hb : x.2.IsOn g) {s : TableSearch}
    (hs : ∀ c ∈ s.found, c.IsSound g .impossibility) :
    ∃ s', impossibilityPair (.str policy) entry i s x = .ok s' ∧
      ∀ c ∈ s'.found, c.IsSound g .impossibility := by
  obtain ⟨a, ha'⟩ := (h.isComparison ha).exists_describe
  obtain ⟨b, hb'⟩ := (h.isComparison hb).exists_describe
  obtain ⟨e, he⟩ := (h.isComparison ha).exists_evidence
  obtain ⟨f, hf⟩ := (h.isComparison hb).exists_evidence
  have hcandidate : ∃ c, impossibilityCandidate (.str policy) i x.1 x.2 = .ok c ∧
      c.IsSound g .impossibility := by
    simp only [impossibilityCandidate, ha', hb', he, hf, Attempt.ok_bind]
    refine ⟨_, rfl, h.isSound_of_pair ha hb rfl (fun n hn => List.mem_pair.mp hn) rfl ?_⟩
    exact fun n hn => ⟨policy, List.mem_singleton.mp hn, hpolicy⟩
  obtain ⟨c, hc, hsound⟩ := hcandidate
  rw [impossibilityPair]
  split
  · exact ⟨s, rfl, hs⟩
  refine ⟨⟨s.seen ++ [(entry, x.1.node.id, x.2.node.id)], s.found ++ [c]⟩, by rw [hc]; rfl,
    fun y hy => ?_⟩
  rcases List.mem_append.mp hy with hy | hy
  · exact hs y hy
  · rwa [List.mem_singleton.mp hy]

theorem IsLegible.exists_impossibilityEntry (h : g.IsLegible) {policy : String}
    (hpolicy : g.HasPolicy policy) {ls : List Literal} (hls : ∀ l ∈ ls, l.IsOn g)
    {entry : Impossibility × Nat} (hentry : entry.1.IsFitting) {s : TableSearch}
    (hs : ∀ c ∈ s.found, c.IsSound g .impossibility) :
    ∃ s', impossibilityEntry (.str policy) ls s entry = .ok s' ∧
      ∀ c ∈ s'.found, c.IsSound g .impossibility := by
  obtain ⟨firsts, hfirsts, hfirstsOn⟩ := h.exists_implying hentry.first hls
  obtain ⟨seconds, hseconds, hsecondsOn⟩ := h.exists_implying hentry.second hls
  rw [impossibilityEntry]
  split
  · exact ⟨s, rfl, hs⟩
  rw [hfirsts, Attempt.ok_bind]
  split
  · exact ⟨s, rfl, hs⟩
  rw [hseconds, Attempt.ok_bind]
  refine Attempt.exists_foldlM hs fun s hs x hx => ?_
  obtain ⟨a, ha, hx⟩ := List.mem_flatMap.mp hx
  obtain ⟨b, hb, rfl⟩ := List.mem_map.mp hx
  exact h.exists_impossibilityPair hpolicy (hfirstsOn a ha) (hsecondsOn b hb) hs

/-- Pairs of conditions that a fitting table excludes are found. -/
theorem IsLegible.exists_impossibilities (h : g.IsLegible)
    (htable : ∀ i ∈ table, i.IsFitting) :
    ∃ cs, g.impossibilities table = .ok cs ∧ ∀ c ∈ cs, c.IsSound g .impossibility := by
  have hsearch : ∃ s, (g.policyIds false).foldlM (g.impossibilityPolicy table) {} = .ok s ∧
      ∀ c ∈ s.found, c.IsSound g .impossibility := by
    refine Attempt.exists_foldlM (P := fun s : TableSearch => ∀ c ∈ s.found, c.IsSound g _)
      (List.forall_mem_nil _) fun s hs policy hpolicy => ?_
    obtain ⟨ps, hps⟩ := h.paths policy hpolicy
    obtain ⟨a, rfl, ha⟩ := h.exists_of_mem_policyIds hpolicy
    rw [impossibilityPolicy, hps, Attempt.ok_bind]
    refine Attempt.exists_foldlM hs fun s hs x hx => ?_
    refine Attempt.exists_foldlM hs fun s hs entry hentry => ?_
    exact h.exists_impossibilityEntry ha (isOn_of_paths hps x hx)
      (htable _ (List.fst_mem_of_mem_zipIdx hentry)) hs
  obtain ⟨s, hs, hsound⟩ := hsearch
  exact ⟨s.found, by rw [impossibilities, hs, Attempt.map_ok], hsound⟩

end Impossibilities

end PolicyGraph
end Eligibility
