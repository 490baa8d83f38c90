import Eligibility.Proofs.Exclusions
import Eligibility.Proofs.Resemblance
/-!
# Comparisons of policies with each other

**Exclusions.**  The requirements on a variable are compared pair by pair.  In graphs that resemble
each other they are the same up to order, and what a pair leaves does not depend on its order.

**Results.**
* `nodup_names_ofList`: groups of texts have different names.
* `exists_variables`: the variables of the conditions of a graph.
* `subjects_eq`: graphs with the same conditions have the same variables.
* `flatMap_pairsOf_perm`: pairs of a list in another order.
* `passAgrees_exclusion`: the passes over exclusions agree over graphs that resemble each other and
  share scopes.
-/

namespace Eligibility

namespace Grouping

variable {α : Type}

/-- Adding an item under a text adds the text to the names, unless it is there. -/
theorem names_add (s : String) (x : α) (gs : Grouping α) :
    (gs.add (.str s) x).names = gs.names ∨
      .str s ∉ gs.names ∧ (gs.add (.str s) x).names = gs.names ++ [.str s] := by
  induction gs with
  | nil => exact .inr ⟨by simp [names], rfl⟩
  | cons q r ih =>
      obtain ⟨k, ys⟩ := q
      unfold add
      split
      · exact .inl rfl
      · next hk =>
        rw [Json.alike_str_right] at hk
        obtain hsame | ⟨hs, hmore⟩ := ih
        · exact .inl (congrArg (k :: ·) hsame)
        · refine .inr ⟨fun hmem => ?_, congrArg (k :: ·) hmore⟩
          exact (List.mem_cons.mp hmem).elim (fun he => hk he.symm) hs

/-- Items grouped by texts stand under different names. -/
theorem nodup_names_ofList {name : α → Option Name} {xs : List α}
    (h : ∀ x ∈ xs, ∀ n ∈ name x, ∃ s, n = .str s) : (ofList name xs).names.Nodup := by
  have hfold : ∀ gs : Grouping α, gs.names.Nodup → (xs.foldl (step name) gs).names.Nodup := by
    induction xs with
    | nil => exact fun gs hgs => hgs
    | cons x r ih =>
        intro gs hgs
        obtain ⟨hx, hr⟩ := List.forall_mem_cons.mp h
        refine ih hr _ ?_
        unfold step
        cases hn : name x with
        | none => exact hgs
        | some n =>
            obtain ⟨s, rfl⟩ := hx n hn
            rcases names_add s x gs with hsame | ⟨hs, hmore⟩
            · simpa only [hsame] using hgs
            · refine hmore ▸ List.nodup_append.mpr ⟨hgs, List.nodup_singleton _, ?_⟩
              rintro a ha b hb rfl
              exact hs (List.mem_singleton.mp hb ▸ ha)
  rw [ofList_eq_foldl]
  exact hfold [] List.nodup_nil

end Grouping

open Conflict

namespace PolicyGraph

variable {g h : PolicyGraph} {k : ConflictKind} {table : List Impossibility}

section Questions

/-- A traversal of questions that have answers gives what they give. -/
theorem mapM_given {α β : Type} {f : α → Except Fault (List β)} {l : List α}
    (h : ∀ x ∈ l, ∃ ys, f x = .ok ys) : l.mapM f = .ok (l.map fun x => given (f x)) :=
  Attempt.mapM_eq_ok_map fun x hx => by
    obtain ⟨ys, hys⟩ := h x hx
    rw [hys, given]

/-- The variables of a graph that can be read are those of its conditions, each once. -/
theorem IsLegible.exists_variables (hg : g.IsLegible) : ∃ xs : List String,
    g.index.byVariable.names = xs.map .str ∧ xs.Nodup ∧
      ∀ s, s ∈ xs ↔ ∃ n ∈ g.nodes, n.isLeaf = true ∧ n.subject = .str s := by
  have htext : ∀ n ∈ g.nodes, ∀ x ∈ n.subject?, ∃ s, x = .str s := by
    intro n hn x hx
    unfold Node.subject? at hx
    split at hx
    · next hleaf => exact Option.some.inj hx ▸ (hg.leaf n hn hleaf).exists_subject
    · cases hx
  have hbyVariable : g.index.byVariable = Grouping.ofList Node.subject? g.nodes :=
    congrArg Index.byVariable g.indexed
  have hnodup := Grouping.nodup_names_ofList htext
  have hstrs : ∀ n ∈ g.index.byVariable.names, ∃ s, n = Json.str s := by
    intro n hn
    obtain ⟨q, hq, rfl⟩ := List.mem_map.mp hn
    rw [hbyVariable] at hq
    obtain ⟨⟨x, hx, hname⟩, -⟩ := Grouping.areOf_ofList _ _ q hq
    exact htext x hx q.1 hname
  obtain ⟨xs, hxs⟩ := Name.exists_strs hstrs
  rw [← hbyVariable, hxs] at hnodup
  have hmem : ∀ s, s ∈ xs ↔ Json.str s ∈ g.index.byVariable.names := fun s => by
    rw [hxs]
    simp
  refine ⟨xs, hxs, hnodup.of_map, fun s => (hmem s).trans ⟨fun hs => ?_, ?_⟩⟩
  · obtain ⟨q, hq, hqs⟩ := List.mem_map.mp hs
    rw [hbyVariable] at hq
    obtain ⟨⟨n, hn, hname⟩, -⟩ := Grouping.areOf_ofList _ _ q hq
    unfold Node.subject? at hname
    split at hname
    · next hleaf => exact ⟨n, hn, hleaf, (Option.some.inj hname).trans hqs⟩
    · cases hname
  · rintro ⟨n, hn, hleaf, hsubject⟩
    exact Grouping.mem_names_of_mem_members (mem_conditionsOn_str.mpr ⟨hn, hleaf, hsubject⟩)

/-- Graphs with the same conditions have the same variables. -/
theorem Resembles.subjects_eq (hgh : g.Resembles h) (hg : g.IsLegible) (hh : h.IsLegible) :
    g.subjects = h.subjects := by
  obtain ⟨xs, hxs, hxnodup, hxmem⟩ := hg.exists_variables
  obtain ⟨ys, hys, hynodup, hymem⟩ := hh.exists_variables
  have hperm : xs.Perm ys := (List.perm_ext_iff_of_nodup hxnodup hynodup).mpr fun s => by
    rw [hxmem, hymem]
    exact exists_congr fun n => ⟨fun ⟨hn, hleaf, hs⟩ => ⟨(hgh.leaves n hleaf).mp hn, hleaf, hs⟩,
      fun ⟨hn, hleaf, hs⟩ => ⟨(hgh.leaves n hleaf).mpr hn, hleaf, hs⟩⟩
  rw [subjects, subjects, hxs, hys, Name.sorted_strs, Name.sorted_strs,
    Name.sortTexts_eq_of_perm hperm]

/-- The conditions on a variable are different ones. -/
theorem IsLegible.nodup_conditionsOn (hg : g.IsLegible) (s : String) :
    (g.conditionsOn (.str s)).Nodup := by
  rw [conditionsOn, g.indexed]
  simp only [Index.of, Grouping.members_ofList]
  exact hg.distinct.of_map.filter _

/-- Graphs with the same conditions have the same conditions on a variable, in any order. -/
theorem Resembles.conditionsOn_perm (hgh : g.Resembles h) (hg : g.IsLegible) (hh : h.IsLegible)
    (s : String) : (g.conditionsOn (.str s)).Perm (h.conditionsOn (.str s)) := by
  refine (List.perm_ext_iff_of_nodup (hg.nodup_conditionsOn _) (hh.nodup_conditionsOn _)).mpr
    fun n => ?_
  rw [mem_conditionsOn_str, mem_conditionsOn_str]
  exact and_congr_left fun hcond => hgh.leaves n hcond.1

end Questions

section Exclusions

/-- The pairs of a list in another order, under a question that does not depend on their order. -/
theorem flatMap_pairsOf_perm {α β : Type} {P : α → Prop} {f : α → α → List β}
    (hsymm : ∀ a b, P a → P b → f a b = f b a) {xs ys : List α} (h : xs.Perm ys)
    (hxs : ∀ x ∈ xs, P x) :
    ((pairsOf xs).flatMap fun p => f p.1 p.2).Perm ((pairsOf ys).flatMap fun p => f p.1 p.2) := by
  induction h with
  | nil => exact .refl _
  | @cons x xs ys hperm ih =>
      obtain ⟨-, hr⟩ := List.forall_mem_cons.mp hxs
      simp only [pairsOf, List.flatMap_append, List.flatMap_map]
      exact (hperm.flatMap_right _).append (ih hr)
  | swap x y r =>
      obtain ⟨hy, hx, -⟩ := List.forall_mem_cons.mp hxs |>.imp id List.forall_mem_cons.mp
      simp only [pairsOf, List.map_cons, List.flatMap_append, List.flatMap_cons, List.flatMap_map,
        hsymm x y hx hy, List.append_assoc]
      refine .append_left _ ?_
      rw [← List.append_assoc, ← List.append_assoc]
      exact List.perm_append_comm.append_right _
  | @trans xs ys zs hxy _ ih ih' =>
      exact (ih hxs).trans (ih' fun y hy => hxs y (hxy.mem_iff.mpr hy))

/-- The requirements of all policies on a variable, condition after condition. -/
def demandsOn (g : PolicyGraph) (s : String) : List Demand :=
  (g.conditionsOn (.str s)).flatMap fun n =>
    g.allDemands.filter fun d => d.literal.node.id.alike n.id

theorem mem_allDemands_of_mem_demandsOn {s : String} {d : Demand} (hd : d ∈ g.demandsOn s) :
    d ∈ g.allDemands := by
  obtain ⟨n, -, hd⟩ := List.mem_flatMap.mp hd
  exact List.mem_of_mem_filter hd

/-- Whether a candidate is that of requirements of two policies. -/
structure IsExclusionOf (g : PolicyGraph) (l m : Literal) (c : Candidate) : Prop where
  sound : c.IsSound g .exclusion
  literals : c.IsOfLiterals l m
  severity : ∃ a b, l.node.policy = .str a ∧ m.node.policy = .str b ∧
    g.IsExclusionSeverity a b c.severity

/-- Whether two requirements are of two policies and cannot hold together. -/
def Demand.Excludes (a b : Demand) : Prop :=
  a.policy ≠ b.policy ∧ ∃ c d, a.literal.condition = .ok c ∧ b.literal.condition = .ok d ∧
    c.jointly d = .ok false

/-- Whether two conditions of comparisons can hold together does not depend on their order. -/
theorem jointly_swap {l m : Literal} (hl : l.node.IsComparison) (hm : m.node.IsComparison)
    {c d : Condition} (hc : l.condition = .ok c) (hd : m.condition = .ok d) :
    c.jointly d = d.jointly c := by
  obtain ⟨i, hi, hic, hifinite⟩ := hl.exists_condition
  obtain ⟨j, hj, hjc, hjfinite⟩ := hm.exists_condition
  obtain rfl := Except.ok.inj (hc.symm.trans hic)
  obtain rfl := Except.ok.inj (hd.symm.trans hjc)
  rw [Condition.jointly_ofConstraint, Condition.jointly_ofConstraint,
    Constraint.jointly_comm ⟨hi, hifinite⟩ ⟨hj, hjfinite⟩]

/-- Whether requirements exclude each other does not depend on their order. -/
theorem IsLegible.excludes_swap (hg : g.IsLegible) {a b : Demand} (ha : a.IsOn g) (hb : b.IsOn g)
    (h : a.Excludes b) : b.Excludes a := by
  obtain ⟨hne, c, d, hc, hd, hno⟩ := h
  refine ⟨hne.symm, d, c, hd, hc, ?_⟩
  rwa [← jointly_swap (hg.isComparison ha.literal) (hg.isComparison hb.literal) hc hd]

/-- Requirements have a candidate exactly where they exclude each other. -/
theorem IsLegible.exclusionPair_cases (hg : g.IsLegible) (howned : g.IsOwned) (subject : Name)
    {a b : Demand} (ha : a ∈ g.allDemands) (hb : b ∈ g.allDemands) :
    (¬ a.Excludes b ∧ g.exclusionPair subject a b = .ok []) ∨
      a.Excludes b ∧ ∃ c, g.exclusionPair subject a b = .ok [c] ∧
        g.IsExclusionOf a.literal b.literal c := by
  have haOn := hg.isOn_of_mem_allDemands ha
  have hbOn := hg.isOn_of_mem_allDemands hb
  have hfirst := hg.isComparison haOn.literal
  have hsecond := hg.isComparison hbOn.literal
  obtain ⟨c, -, hc, -⟩ := hfirst.exists_condition
  obtain ⟨d, -, hd, -⟩ := hsecond.exists_condition
  obtain ⟨x, hx⟩ := Condition.exists_jointly (hfirst.isFitting hc) (hsecond.isFitting hd)
  obtain ⟨s, hs⟩ := hfirst.exists_describe
  obtain ⟨t, ht⟩ := hsecond.exists_describe
  obtain ⟨e, he⟩ := hfirst.exists_evidence
  obtain ⟨f, hf⟩ := hsecond.exists_evidence
  obtain ⟨u, hu, hpolicyU⟩ := haOn.policy
  obtain ⟨v, hv, hpolicyV⟩ := hbOn.policy
  obtain ⟨links, hlinks, hspec⟩ := hg.exists_linkedBy hpolicyU hpolicyV
  rw [exclusionPair, hu, hv, Json.same_str]
  by_cases hsame : u = v
  · left
    refine ⟨fun hex => hex.1 (by rw [hu, hv, hsame]), ?_⟩
    rw [if_pos (by simpa using hsame)]
    rfl
  rw [if_neg (by simpa using hsame), hc, Attempt.ok_bind, hd, Attempt.ok_bind, hx, Attempt.ok_bind]
  cases x with
  | true =>
      left
      refine ⟨?_, rfl⟩
      rintro ⟨-, c', d', hc', hd', hno⟩
      obtain rfl := Except.ok.inj (hc.symm.trans hc')
      obtain rfl := Except.ok.inj (hd.symm.trans hd')
      rw [hx] at hno
      cases hno
  | false =>
      right
      refine ⟨⟨by simpa [hu, hv] using hsame, _, _, hc, hd, hx⟩, ?_⟩
      simp only [exclusionCandidate, hu, hv, hlinks, hs, ht, he, hf, Attempt.ok_bind]
      refine ⟨_, rfl, ?_, ⟨fun n => List.mem_pair, fun n => List.mem_pair, fun n => ?_, rfl⟩,
        u, v, ?_, ?_, ?_⟩
      · refine hg.isSound_of_pair haOn.literal hbOn.literal rfl (fun n hn => List.mem_pair.mp hn)
          rfl fun n hn => ?_
        rcases List.mem_pair.mp hn with rfl | rfl
        · exact ⟨u, rfl, hpolicyU⟩
        · exact ⟨v, rfl, hpolicyV⟩
      · rw [howned.demands a ha, howned.demands b hb, hu, hv]
        exact List.mem_pair
      · rw [howned.demands a ha, hu]
      · rw [howned.demands b hb, hv]
      · have hrequires := ((hspec hsame).2 .requires).trans isLinkedBy_requires
        by_cases hmem : Relation.requires ∈ links
        · exact .inl ⟨hrequires.mp hmem, by simp [hmem]⟩
        · exact .inr ⟨fun hr => hmem (hrequires.mpr hr), by simp [hmem]⟩

theorem IsExclusionSeverity.eq {a b : String} {s s' : Severity}
    (hab : g.IsExclusionSeverity a b s) (hab' : g.IsExclusionSeverity a b s') : s = s' := by
  rcases hab with ⟨hr, hs⟩ | ⟨hr, hs⟩ <;> rcases hab' with ⟨hr', hs'⟩ | ⟨hr', hs'⟩
  · rw [hs, hs']
  · exact absurd hr hr'
  · exact absurd hr' hr
  · rw [hs, hs']

/-- Exclusions of the same conditions leave the same in graphs that resemble each other and share
scopes. -/
theorem IsExclusionOf.mark_eq {l m l' m' : Literal} {c d : Candidate} (hc : g.IsExclusionOf l m c)
    (hd : h.IsExclusionOf l' m' d) (hg : g.IsLegible)
    (hclauses : ∀ n, g.hasClause n = h.hasClause n)
    (hscopes : g.SharesScopes h) (hl : l.IsOn g) (hm : m.IsOn g) (hl' : l'.IsOn g) (hm' : m'.IsOn g)
    (hnodes : ∀ n, n ∈ c.nodes ↔ n ∈ d.nodes) : c.mark g = d.mark h := by
  have hids : ∀ n, n = l.node.id ∨ n = m.node.id ↔ n = l'.node.id ∨ n = m'.node.id := fun n => by
    rw [← hc.literals.nodes, hnodes, hd.literals.nodes]
  obtain ⟨a, b, ha, hb, hseverity⟩ := hc.severity
  obtain ⟨a', b', ha', hb', hseverity'⟩ := hd.severity
  have hshared : g.IsExclusionSeverity a' b' d.severity := by
    have hrequires := hscopes.requires a' b'
    rw [isLinkedBy_requires, isLinkedBy_requires] at hrequires
    exact hseverity'.imp (fun hs => ⟨hrequires.mpr hs.1, hs.2⟩)
      fun hs => ⟨fun hr => hs.1 (hrequires.mp hr), hs.2⟩
  have hsame : c.severity = d.severity := by
    rcases Candidate.nodes_eq_of_ids hg hl hm hl' hm' hids with ⟨h1, h2⟩ | ⟨h1, h2⟩
    · obtain rfl : a = a' := Json.str.inj (ha.symm.trans ((congrArg Node.policy h1).trans ha'))
      obtain rfl : b = b' := Json.str.inj (hb.symm.trans ((congrArg Node.policy h2).trans hb'))
      exact hseverity.eq hshared
    · obtain rfl : a = b' := Json.str.inj (ha.symm.trans ((congrArg Node.policy h1).trans hb'))
      obtain rfl : b = a' := Json.str.inj (hb.symm.trans ((congrArg Node.policy h2).trans ha'))
      exact hseverity.eq hshared.symm
  refine hc.literals.mark_eq hd.literals hg hl hm hl' hm' hc.sound hd.sound hsame hnodes hclauses
    fun x y hx hy => hscopes.scope true x y ?_ ?_
  · obtain ⟨s, hs, hpolicy⟩ := hc.sound.policies _ hx
    rwa [Json.str.inj hs]
  · obtain ⟨s, hs, hpolicy⟩ := hc.sound.policies _ hy
    rwa [Json.str.inj hs]

/-- The candidates of all pairs of requirements, variable after variable. -/
def exclusionTrace (g : PolicyGraph) (xs : List String) : List Candidate :=
  xs.flatMap fun x => (pairsOf (g.demandsOn x)).flatMap fun p =>
    given (g.exclusionPair (.str x) p.1 p.2)

/-- The pass over exclusions goes through all pairs of requirements. -/
theorem IsLegible.exclusions_eq (hg : g.IsLegible) :
    ∃ xs : List String, g.subjects = .ok (xs.map .str) ∧
      g.exclusions = .ok (g.exclusionTrace xs) := by
  obtain ⟨xs, hxs, -⟩ := hg.exists_subjects
  have hdemands : (g.policyIds false).mapM g.demandsOf =
      .ok ((g.policyIds false).map fun a => given (g.demandsOf a)) := mapM_given fun a ha => by
    obtain ⟨ls, hls⟩ := hg.requirements a ha
    exact ⟨_, by rw [demandsOf, hls, Attempt.map_ok]⟩
  set groups := Grouping.ofList (fun d : Demand => some d.literal.node.id) g.allDemands with hgroups
  have htable : g.demandTable = .ok groups := by
    rw [demandTable, hdemands]
    rfl
  have hon : ∀ x : String, g.exclusionsOn groups (.str x) =
      .ok ((pairsOf (g.demandsOn x)).flatMap fun p =>
        given (g.exclusionPair (.str x) p.1 p.2)) := by
    intro x
    have hmembers : ((g.conditionsOn (.str x)).flatMap fun n => groups.members n.id) =
        g.demandsOn x := by
      refine List.flatMap_congr fun n hn => ?_
      obtain ⟨k, hk⟩ := hg.ids n (mem_conditionsOn_str.mp hn).1
      rw [hgroups, hk, Grouping.members_ofList]
      rfl
    have hpairs := mapM_given (f := fun p => g.exclusionPair (.str x) p.1 p.2)
      (l := pairsOf (g.demandsOn x)) fun p hp => by
        have hfirst := mem_allDemands_of_mem_demandsOn (mem_of_mem_pairsOf hp).1
        have hsecond := mem_allDemands_of_mem_demandsOn (mem_of_mem_pairsOf hp).2
        obtain ⟨cs, hcs, -⟩ := hg.exists_exclusionPair (.str x)
          (hg.isOn_of_mem_allDemands hfirst) (hg.isOn_of_mem_allDemands hsecond)
        exact ⟨cs, hcs⟩
    rw [exclusionsOn, hmembers, hpairs]
    rfl
  refine ⟨xs, hxs, ?_⟩
  have hall : (xs.map Json.str).mapM (g.exclusionsOn groups) =
      .ok (xs.map fun x => (pairsOf (g.demandsOn x)).flatMap fun p =>
        given (g.exclusionPair (.str x) p.1 p.2)) := by
    rw [List.mapM_map]
    exact Attempt.mapM_eq_ok_map fun x _ => hon x
  rw [exclusions, htable, Attempt.ok_bind, hxs, Attempt.ok_bind, hall]
  rfl

/-- The candidates of exclusions are those of requirements of two policies. -/
theorem IsLegible.isExclusionOf_of_mem (hg : g.IsLegible) (howned : g.IsOwned) {xs : List String}
    {c : Candidate} (hc : c ∈ g.exclusionTrace xs) : ∃ a ∈ g.allDemands, ∃ b ∈ g.allDemands,
      g.IsExclusionOf a.literal b.literal c := by
  obtain ⟨x, -, hc⟩ := List.mem_flatMap.mp hc
  obtain ⟨p, hp, hc⟩ := List.mem_flatMap.mp hc
  have hfirst := mem_allDemands_of_mem_demandsOn (mem_of_mem_pairsOf hp).1
  have hsecond := mem_allDemands_of_mem_demandsOn (mem_of_mem_pairsOf hp).2
  rcases hg.exclusionPair_cases howned (.str x) hfirst hsecond with ⟨-, hnone⟩ | ⟨-, d, hd, hof⟩
  · simp [hnone, given] at hc
  · rw [hd, given, List.mem_singleton] at hc
    exact ⟨p.1, hfirst, p.2, hsecond, hc ▸ hof⟩

/-- What a pair of requirements leaves is the same in graphs that resemble each other and share
scopes, and in either order. -/
theorem Resembles.marks_exclusionPair (hgh : g.Resembles h) (hscopes : g.SharesScopes h)
    (hg : g.IsLegible) (hh : h.IsLegible) (howned : g.IsOwned) (howned' : h.IsOwned)
    (subject : Name) {a b : Demand} (ha : a ∈ g.allDemands) (hb : b ∈ g.allDemands) :
    (given (g.exclusionPair subject a b)).map (·.mark g) =
        (given (h.exclusionPair subject a b)).map (·.mark h) ∧
      (given (g.exclusionPair subject a b)).map (·.mark g) =
        (given (g.exclusionPair subject b a)).map (·.mark g) := by
  have haOn := hg.isOn_of_mem_allDemands ha
  have hbOn := hg.isOn_of_mem_allDemands hb
  have hpair := hg.exclusionPair_cases howned subject ha hb
  have hpair' := hh.exclusionPair_cases howned' subject (hgh.demands.mem_iff.mp ha)
    (hgh.demands.mem_iff.mp hb)
  have hswap := hg.exclusionPair_cases howned subject hb ha
  constructor
  · rcases hpair with ⟨hno, hnone⟩ | ⟨hyes, c, hc, hof⟩ <;>
      rcases hpair' with ⟨hno', hnone'⟩ | ⟨hyes', d, hd, hof'⟩
    · rw [hnone, hnone']
      rfl
    · exact absurd hyes' hno
    · exact absurd hyes hno'
    · rw [hc, hd]
      exact congrArg ([·]) (hof.mark_eq hof' hg hgh.clauses hscopes haOn.literal hbOn.literal
        haOn.literal hbOn.literal fun n => by rw [hof.literals.nodes, hof'.literals.nodes])
  · rcases hpair with ⟨hno, hnone⟩ | ⟨hyes, c, hc, hof⟩ <;>
      rcases hswap with ⟨hno', hnone'⟩ | ⟨hyes', d, hd, hof'⟩
    · rw [hnone, hnone']
    · exact absurd (hg.excludes_swap hbOn haOn hyes') hno
    · exact absurd (hg.excludes_swap haOn hbOn hyes) hno'
    · rw [hc, hd]
      exact congrArg ([·]) (hof.mark_eq hof' hg (fun _ => rfl) (.refl g) haOn.literal hbOn.literal
        hbOn.literal haOn.literal fun n => by
          rw [hof.literals.nodes, hof'.literals.nodes, or_comm])

/-- The passes over exclusions agree over graphs that resemble each other and share scopes. -/
theorem passAgrees_exclusion (hg : g.IsLegible) (hh : h.IsLegible) (hgh : g.Resembles h)
    (hscopes : g.SharesScopes h) (howned : g.IsOwned) (howned' : h.IsOwned)
    {ks : List ConflictKind} (hk : .exclusion ∈ ks) :
    PassAgrees table (g.HasNoCollisionAmong table ks) g h .exclusion := by
  obtain ⟨xs, hxs, hcs⟩ := hg.exclusions_eq
  obtain ⟨ys, hys, hds⟩ := hh.exclusions_eq
  obtain rfl : ys = xs := by
    rw [hgh.subjects_eq hg hh, hys] at hxs
    exact Json.strs_inj (Except.ok.inj hxs)
  have hsound : ∀ {g : PolicyGraph}, g.IsLegible → g.IsOwned → ∀ c ∈ g.exclusionTrace ys,
      c.IsSound g .exclusion := by
    intro g hg howned c hc
    obtain ⟨a, -, b, -, hof⟩ := hg.isExclusionOf_of_mem howned hc
    exact hof.sound
  have hperm : ((g.exclusionTrace ys).map (·.mark g)).Perm
      ((h.exclusionTrace ys).map (·.mark h)) := by
    simp only [exclusionTrace, List.map_flatMap]
    refine List.Perm.flatMap_left ys fun y _ => ?_
    have hmarks := fun a ha b hb => hgh.marks_exclusionPair hscopes hg hh howned howned' (.str y)
      (a := a) (b := b) ha hb
    have hdemands : (g.demandsOn y).Perm (h.demandsOn y) :=
      ((hgh.conditionsOn_perm hg hh y).flatMap_right _).trans
        (List.Perm.flatMap_left _ fun n _ => hgh.demands.filter _)
    have hsame : ((pairsOf (h.demandsOn y)).flatMap fun p =>
        (given (g.exclusionPair (.str y) p.1 p.2)).map (·.mark g)) =
          (pairsOf (h.demandsOn y)).flatMap fun p =>
            (given (h.exclusionPair (.str y) p.1 p.2)).map (·.mark h) := by
      refine List.flatMap_congr fun p hp => (hmarks _ ?_ _ ?_).1
      · exact hgh.demands.mem_iff.mpr (mem_allDemands_of_mem_demandsOn (mem_of_mem_pairsOf hp).1)
      · exact hgh.demands.mem_iff.mpr (mem_allDemands_of_mem_demandsOn (mem_of_mem_pairsOf hp).2)
    rw [← hsame]
    exact flatMap_pairsOf_perm (P := (· ∈ g.allDemands))
      (f := fun a b => (given (g.exclusionPair (.str y) a b)).map (·.mark g))
      (fun a b ha hb => (hmarks a ha b hb).2) hdemands
      fun d hd => mem_allDemands_of_mem_demandsOn hd
  refine ⟨_, _, hcs, hds, hsound hg howned, hsound hh howned', .of_perm hperm fun hids => ?_⟩
  refine (tellsNodes_of_candidates (k := .exclusion) hcs hk hids).isFunctional (List.Subset.refl _)
    fun c hc d hd hnodes => ?_
  obtain ⟨a, ha, b, hb, hof⟩ := hg.isExclusionOf_of_mem howned hc
  obtain ⟨a', ha', b', hb', hof'⟩ := hg.isExclusionOf_of_mem howned hd
  exact hof.mark_eq hof' hg (fun _ => rfl) (.refl g) (hg.isOn_of_mem_allDemands ha).literal
    (hg.isOn_of_mem_allDemands hb).literal (hg.isOn_of_mem_allDemands ha').literal
    (hg.isOn_of_mem_allDemands hb').literal hnodes

end Exclusions

end PolicyGraph
end Eligibility
