import Eligibility.Proofs.Circularities
import Eligibility.Proofs.Clashes
/-!
# Contradictions are reported

**Search.**  The search for contradictions goes through the scenes of all declared
policies and notes the first candidate about two nodes.  The nodes of a scene tell its
policy, so that no policy is left without the candidate of a clash of its own.

**Agreement.**  The check of a policy and the search look at the same scenes: the check
fails exactly where a contradiction of the policy is reported, and names a reported pair.

**Results.**
* `exists_contradictions_spec`: the candidates of contradictions are those of clashes.
* `precheck_iff_contradiction`: the check of a policy agrees with the report.
-/

namespace Eligibility

namespace Conflict

/-- The rules that the evidence of a conflict cites. -/
def rulesOf (evidence : List (String × Json)) : List Json :=
  match Json.lookup "conditions" evidence with
  | some (.arr cs) => cs.map fun c => (c.get? "rule_id").getD .null
  | _ => []

/-- The rules that a conflict cites. -/
def citedRules (x : Conflict) : List Json := rulesOf x.evidence

/-- Whether a conflict is a contradiction in one policy. -/
def IsContradictionIn (x : Conflict) (policy : String) : Prop :=
  x.kind = .contradiction ∧ x.policies = [policy]

end Conflict

namespace Candidate

/-- Whether a candidate is about the nodes of two commitments. -/
def IsAbout (c : Candidate) (a b : Commitment) : Prop :=
  ∀ n, n ∈ c.nodes ↔
    n ∈ [Json.str (Node.conditionKey a.head.id), .str (Node.conditionKey b.head.id)]

theorem IsAbout.mem_ids_iff {c c' : Candidate} {a b x y : Commitment} (hc : c.IsAbout a b)
    (hc' : c'.IsAbout x y) (hnodes : ∀ n, n ∈ c'.nodes ↔ n ∈ c.nodes) (s : String) :
    s ∈ [x.head.id, y.head.id] ↔ s ∈ [a.head.id, b.head.id] := by
  have hnode := ((hc' (.str (Node.conditionKey s))).symm.trans (hnodes _)).trans (hc _)
  simpa [Node.conditionKey_inj] using hnode

/-- A candidate of two commitments of a policy. -/
structure IsOfPair (c : Candidate) (policy : String) (a b : Commitment) : Prop where
  nodes : c.IsAbout a b
  policies : c.policies = [.str policy]
  rules : Conflict.rulesOf c.evidence = [.str a.head.id, .str b.head.id]

end Candidate

variable {cfg : Settings} {g : PolicyGraph} {p : Plan}

/-- Whether two commitments stand beside each other in a scene of a policy and clash. -/
def Plan.HasClash (p : Plan) (policy : String) (a b : Commitment) : Prop :=
  ∃ s ∈ p.scenesOf policy, a = s.leaf ∧ b ∈ s.context ∧ a.Clashes b

theorem Plan.HasClash.isPlaced {d : Document} {a b : Commitment} (h : p.HasClash d.policy a b)
    (hp : p.IsSound) (hd : d ∈ p.documents) :
    a.IsPlaced p d.policy ∧ b.IsPlaced p d.policy ∧ b.head.id ≠ a.head.id := by
  obtain ⟨s, hs, rfl, hb, -⟩ := h
  obtain ⟨hleaf, hcontext⟩ := Plan.isPlaced_of_mem_scenesOf hp hd hs
  exact ⟨hleaf, hcontext b hb⟩

namespace Commitment

variable {policy : String} {a : Commitment}

theorem evidence_literal {k : Constraint} (hk : a.constraint? = some k) :
    (a.literal cfg policy).evidence = .ok (.obj [("rule_id", .str a.head.id),
      ("clause_reference", .str a.head.clause), ("policy_id", .str policy),
      ("constraint", .str k.describe)]) := by
  rw [Literal.evidence, describe_literal hk]
  simp [Literal.rule, Literal.clause, literal]

/-- Commitments placed in two policies are about different rules. -/
theorem IsPlaced.policy_eq (h : g.IsDrawnFrom cfg p) {b : Commitment} {other : String}
    (ha : a.IsPlaced p policy) (hb : b.IsPlaced p other) (hid : a.head.id = b.head.id) :
    policy = other := by
  obtain ⟨r, hr, hra, -⟩ := ha
  obtain ⟨t, ht, htb, -⟩ := hb
  have hnode : ∀ {x : String × Rule} {c : Commitment}, x ∈ p.placed → x.2.head = c.head →
      g.node? (.str (Node.conditionKey c.head.id)) = some (Plan.conditionNode cfg x.1 c.head) :=
    fun hx he => he ▸ h.node?_condition hx
  have hsame := hnode ht htb
  rw [← hid, hnode hr hra] at hsame
  simpa using congrArg Node.policy (Option.some.inj hsame)

end Commitment

namespace PolicyGraph

section Search

/-- Candidates of clashes, one for every pair of nodes that was met. -/
structure PairSearch.IsSound (p : Plan) (s : PairSearch) : Prop where
  found : ∀ c ∈ s.found, ∃ d ∈ p.documents, ∃ a b, p.HasClash d.policy a b ∧
    c.IsOfPair d.policy a b
  seen : ∀ q ∈ s.seen, ∃ c ∈ s.found, c.nodes = [q.1, q.2]

/-- Whether a search found all that another one found. -/
def PairSearch.Extends (s t : PairSearch) : Prop := s.found ⊆ t.found

theorem PairSearch.Extends.refl (s : PairSearch) : s.Extends s := List.Subset.refl s.found

theorem PairSearch.Extends.trans {s t u : PairSearch} (hst : s.Extends t) (htu : t.Extends u) :
    s.Extends u :=
  List.Subset.trans hst htu

/-- Whether a search found a candidate about the nodes of two commitments if they clash. -/
def PairSearch.Settles (a b : Commitment) (s : PairSearch) : Prop :=
  a.Clashes b → ∃ c ∈ s.found, c.IsAbout a b

theorem PairSearch.Settles.mono {a b : Commitment} {s t : PairSearch} (hst : s.Extends t)
    (h : s.Settles a b) : t.Settles a b :=
  fun hclash => (h hclash).imp fun _ hc => ⟨hst hc.1, hc.2⟩

variable {d : Document} {a b : Commitment}

theorem exists_contradictionCandidate_eq (cfg : Settings) {policy u v : String} (hp : p.IsSound)
    (ha : a.IsPlaced p policy) (hb : b.IsPlaced p policy)
    (huv : [u, v].Perm [Node.conditionKey a.head.id, Node.conditionKey b.head.id]) :
    ∃ c, contradictionCandidate (.str policy) (.str u) (.str v) (a.literal cfg policy)
        (b.literal cfg policy) = .ok c ∧ c.nodes = [.str u, .str v] ∧ c.IsOfPair policy a b := by
  obtain ⟨k, hk, -⟩ := ha.exists_constraint hp
  obtain ⟨l, hl, -⟩ := hb.exists_constraint hp
  simp only [contradictionCandidate, Commitment.describe_literal hk, Commitment.describe_literal hl,
    Commitment.evidence_literal hk, Commitment.evidence_literal hl, Attempt.ok_bind]
  exact ⟨_, rfl, rfl, fun n => (huv.map Json.str).mem_iff, rfl, rfl⟩

/-- A comparison and a commitment beside it settle whether they clash. -/
theorem IsDrawnFrom.exists_contradictionStep_settled (h : g.IsDrawnFrom cfg p)
    (hd : d ∈ p.documents) {x : Scene} (hx : x ∈ p.scenesOf d.policy) (hb : b ∈ x.context)
    {s : PairSearch} (hs : s.IsSound p) :
    ∃ t, contradictionStep (.str d.policy) (x.leaf.literal cfg d.policy) s
        (b.literal cfg d.policy) = .ok t ∧ t.IsSound p ∧ s.Extends t ∧ t.Settles x.leaf b := by
  obtain ⟨hleaf, hcontext⟩ := Plan.isPlaced_of_mem_scenesOf h.sound hd hx
  obtain ⟨hplaced, hne⟩ := hcontext b hb
  obtain ⟨k, hk, -⟩ := hleaf.exists_constraint h.sound
  obtain ⟨l, hl, -⟩ := hplaced.exists_constraint h.sound
  obtain ⟨u, v, hsorted, huv⟩ := Name.exists_sorted_pair (Node.conditionKey x.leaf.head.id)
    (Node.conditionKey b.head.id)
  have hdistinct : u ≠ v := by
    have hnodup := huv.nodup_iff.mpr (by simpa [Node.conditionKey_inj] using Ne.symm hne)
    simpa using hnodup
  obtain ⟨answer, hanswer, hiff⟩ := Commitment.exists_jointly hleaf hplaced h.sound
    (Commitment.condition_literal cfg _ hk) (Commitment.condition_literal cfg _ hl)
  obtain ⟨c, hc, hnodes, hof⟩ :=
    exists_contradictionCandidate_eq cfg h.sound hleaf hplaced huv
  have hids : [(x.leaf.literal cfg d.policy).node.id, (b.literal cfg d.policy).node.id] =
      [.str (Node.conditionKey x.leaf.head.id), .str (Node.conditionKey b.head.id)] := rfl
  rw [contradictionStep, hids, hsorted, Attempt.ok_bind]
  dsimp only
  split
  -- the pair was met before, and its candidate is there
  · next hseen =>
    refine ⟨s, rfl, hs, .refl s, fun _ => ?_⟩
    have hsame : (Json.str u).same (.str v) = false := by simpa using hdistinct
    rw [hsame, Bool.or_false, PairSearch.hasSeen, List.any_eq_true] at hseen
    obtain ⟨q, hq, halike⟩ := hseen
    rw [Bool.and_eq_true, Json.alike_str_right, Json.alike_str_right] at halike
    obtain ⟨c, hc, hnodes⟩ := hs.seen q hq
    rw [halike.1, halike.2] at hnodes
    exact ⟨c, hc, fun n => by rw [hnodes]; exact (huv.map Json.str).mem_iff⟩
  · rw [Commitment.condition_literal _ _ hk, Attempt.ok_bind, Commitment.condition_literal _ _ hl,
      Attempt.ok_bind, hanswer, Attempt.ok_bind]
    cases answer with
    | true =>
        refine ⟨s, rfl, hs, .refl s, fun hclash => ?_⟩
        cases hiff.mpr hclash
    | false =>
        rw [hc]
        refine ⟨_, rfl, ⟨fun e he => ?_, fun q hq => ?_⟩, List.subset_append_left _ _,
          fun _ => ⟨c, by simp, hof.nodes⟩⟩
        · rcases List.mem_append.mp he with he | he
          · exact hs.found e he
          · rw [List.mem_singleton.mp he]
            exact ⟨d, hd, x.leaf, b, ⟨x, hx, rfl, hb, hiff.mp rfl⟩, hof⟩
        · rcases List.mem_append.mp hq with hq | hq
          · exact (hs.seen q hq).imp fun _ he => ⟨List.mem_append_left _ he.1, he.2⟩
          · rw [List.mem_singleton.mp hq]
            exact ⟨c, by simp, hnodes⟩

/-- A scene settles what its comparison clashes with. -/
theorem IsDrawnFrom.exists_contradictionPath_settled (h : g.IsDrawnFrom cfg p)
    (hd : d ∈ p.documents) {x : Scene} (hx : x ∈ p.scenesOf d.policy) {s : PairSearch}
    (hs : s.IsSound p) :
    ∃ t, contradictionPath (.str d.policy) s (x.path cfg d.policy) = .ok t ∧ t.IsSound p ∧
      s.Extends t ∧ ∀ b ∈ x.context, t.Settles x.leaf b := by
  have hsubject : ∀ c : Commitment, (c.literal cfg d.policy).subject = .str c.head.subject :=
    fun c => Plan.conditionNode_subject cfg d.policy c.head
  have hbeside : ((x.path cfg d.policy).context.filter fun l =>
      l.subject.alike (x.path cfg d.policy).leaf.subject) =
        (x.context.filter fun c => c.head.subject = x.leaf.head.subject).map
          (Commitment.literal cfg d.policy) := by
    rw [Scene.path, List.filter_map]
    refine congrArg (List.map _) (List.filter_congr fun c _ => ?_)
    simp [hsubject]
  obtain ⟨t, ht, hsound, hext, hall⟩ := Attempt.exists_foldlM_settled hs
    (R := PairSearch.Extends) PairSearch.Extends.refl PairSearch.Extends.trans
    (Q := fun b t => t.Settles x.leaf b) (fun hext hb => hb.mono hext)
    fun s hs b (hb : b ∈ x.context.filter fun c => c.head.subject = x.leaf.head.subject) =>
      h.exists_contradictionStep_settled hd hx (List.mem_of_mem_filter hb) hs
  refine ⟨t, ?_, hsound, hext, fun b hb hclash => ?_⟩
  · rw [contradictionPath, hbeside, List.foldlM_map]
    exact ht
  · exact hall b (List.mem_filter.mpr ⟨hb, by simpa using hclash.subject_eq.symm⟩) hclash

/-- A policy settles the clashes of its scenes. -/
theorem IsDrawnFrom.exists_contradictionPolicy_settled (h : g.IsDrawnFrom cfg p)
    (hd : d ∈ p.documents) {s : PairSearch} (hs : s.IsSound p) :
    ∃ t, g.contradictionPolicy s (.str d.policy) = .ok t ∧ t.IsSound p ∧ s.Extends t ∧
      ∀ x ∈ p.scenesOf d.policy, ∀ b ∈ x.context, t.Settles x.leaf b := by
  obtain ⟨t, ht, hsettled⟩ := Attempt.exists_foldlM_settled hs
    (R := PairSearch.Extends) PairSearch.Extends.refl PairSearch.Extends.trans
    (Q := fun (x : Scene) t => ∀ b ∈ x.context, t.Settles x.leaf b)
    (fun hext hx b hb => (hx b hb).mono hext)
    fun s hs x (hx : x ∈ p.scenesOf d.policy) => h.exists_contradictionPath_settled hd hx hs
  refine ⟨t, ?_, hsettled⟩
  rw [contradictionPolicy, h.hasTreesOf.paths_eq hd, Attempt.ok_bind, List.foldlM_map]
  exact ht

/-- The candidates of contradictions are those of clashes, and every clash has one about its
nodes. -/
theorem IsDrawnFrom.exists_contradictions_spec (h : g.IsDrawnFrom cfg p) :
    ∃ cs, g.contradictions = .ok cs ∧
      (∀ c ∈ cs, ∃ d ∈ p.documents, ∃ a b, p.HasClash d.policy a b ∧ c.IsOfPair d.policy a b) ∧
      ∀ d ∈ p.documents, ∀ a b, p.HasClash d.policy a b → ∃ c ∈ cs, c.IsAbout a b := by
  have hempty : PairSearch.IsSound p {} := ⟨by simp, by simp⟩
  obtain ⟨t, ht, hsound, -, hall⟩ := Attempt.exists_foldlM_settled hempty
    (R := PairSearch.Extends) PairSearch.Extends.refl PairSearch.Extends.trans
    (Q := fun (policy : Name) t => ∀ d ∈ p.documents, policy = .str d.policy →
      ∀ x ∈ p.scenesOf d.policy, ∀ b ∈ x.context, t.Settles x.leaf b)
    (fun hext hq d hd he x hx b hb => (hq d hd he x hx b hb).mono hext)
    fun s hs policy (hpolicy : policy ∈ g.policyIds false) => by
      obtain ⟨d, hd, rfl⟩ := h.exists_of_mem_policyIds hpolicy
      obtain ⟨t, ht, hsound, hext, hsettled⟩ := h.exists_contradictionPolicy_settled hd hs
      refine ⟨t, ht, hsound, hext, fun e _ he => ?_⟩
      rw [← Json.str.inj he]
      exact hsettled
  refine ⟨t.found, by rw [contradictions, ht, Attempt.map_ok], hsound.found,
    fun d hd a b hclash => ?_⟩
  obtain ⟨x, hx, rfl, hb, hclash⟩ := hclash
  have hpolicy : Json.str d.policy ∈ g.policyIds false :=
    h.isInternal_iff.mpr (List.mem_map_of_mem hd)
  exact hall _ hpolicy d hd rfl x hx b hb hclash

end Search

section Agreement

variable {table : List Impossibility} {ks : List ConflictKind} {r : ConflictReport}
variable {d : Document} {a b : Commitment}

/-- What the pass over contradictions gives is of a clash. -/
theorem IsDrawnFrom.isOfPair_of_gives (h : g.IsDrawnFrom cfg p) {c : Candidate}
    (hc : g.Gives table .contradiction c) :
    ∃ d ∈ p.documents, ∃ a b, p.HasClash d.policy a b ∧ c.IsOfPair d.policy a b := by
  obtain ⟨cs, hcs, hof, -⟩ := h.exists_contradictions_spec
  obtain ⟨ds, hds, hc⟩ := hc
  obtain rfl := Except.ok.inj (hcs.symm.trans hds)
  exact hof c hc

/-- Candidates of clashes about the same nodes are of one policy and cite the same rules. -/
theorem IsDrawnFrom.eq_of_same_nodes (h : g.IsDrawnFrom cfg p) {e : Document} {x y : Commitment}
    (hd : d ∈ p.documents) (he : e ∈ p.documents) (hab : p.HasClash d.policy a b)
    (hxy : p.HasClash e.policy x y) {c c' : Candidate} (hc : c.IsAbout a b) (hc' : c'.IsAbout x y)
    (hnodes : ∀ n, n ∈ c'.nodes ↔ n ∈ c.nodes) :
    e.policy = d.policy ∧
      [Json.str x.head.id, .str y.head.id].Perm [.str a.head.id, .str b.head.id] := by
  obtain ⟨ha, hb, hba⟩ := hab.isPlaced h.sound hd
  obtain ⟨hx, -, hyx⟩ := hxy.isPlaced h.sound he
  have hids := hc.mem_ids_iff hc' hnodes
  have hperm : [x.head.id, y.head.id].Perm [a.head.id, b.head.id] :=
    (List.perm_ext_iff_of_nodup (by simpa using Ne.symm hyx) (by simpa using Ne.symm hba)).mpr hids
  refine ⟨?_, hperm.map Json.str⟩
  rcases List.mem_pair.mp ((hids x.head.id).mp List.mem_cons_self) with hid | hid
  · exact hx.policy_eq h ha hid
  · exact hx.policy_eq h hb hid

/-- Commitments of a policy that clash are reported. -/
theorem IsReportOf.exists_contradiction (hr : g.IsReportOf table ks r) (h : g.IsDrawnFrom cfg p)
    (hsound : ∀ k ∈ ks, g.PassIsSound table k) (hids : g.HasNoCollisionAmong table ks)
    (hk : .contradiction ∈ ks) (hd : d ∈ p.documents) (hclash : p.HasClash d.policy a b) :
    ∃ x ∈ r.conflicts, x.IsContradictionIn d.policy ∧
      x.citedRules.Perm [.str a.head.id, .str b.head.id] := by
  obtain ⟨cs, hcs, hof, hcomplete⟩ := h.exists_contradictions_spec
  obtain ⟨c, hc, habout⟩ := hcomplete d hd a b hclash
  obtain ⟨_, -, _, _, -, hpair⟩ := hof c hc
  have hgives : g.Gives table .contradiction c := ⟨cs, hcs, hc⟩
  have hscope := ((hsound _ hk).isSound hgives).checkScope_of_lone hpair.policies
  obtain ⟨c', hc', hnodes, x, hx, hkind, hyields⟩ := hr.exists_conflict hsound hids hk hgives hscope
  obtain ⟨e', he', a', b', hclash', hpair'⟩ := h.isOfPair_of_gives hc'
  obtain ⟨hpolicy, hperm⟩ :=
    h.eq_of_same_nodes hd he' hclash hclash' habout hpair'.nodes hnodes
  refine ⟨x, hx, ⟨hkind, ?_⟩, ?_⟩
  · have hpolicies : c'.policies = [d.policy].map .str := by rw [hpair'.policies, hpolicy]; rfl
    rw [hyields.policies_eq hpolicies (List.nodup_singleton _)]
    exact List.perm_singleton.mp (Name.sortTexts_perm _)
  · rw [Conflict.citedRules, hyields.evidence, hpair'.rules]
    exact hperm

/-- Where a contradiction in a policy is reported, commitments of the policy clash. -/
theorem IsReportOf.exists_clash (hr : g.IsReportOf table ks r) (h : g.IsDrawnFrom cfg p)
    (hsound : ∀ k ∈ ks, g.PassIsSound table k) {x : Conflict} (hx : x ∈ r.conflicts)
    {policy : String} (hof : x.IsContradictionIn policy) : ∃ a b, p.HasClash policy a b := by
  obtain ⟨c, hc, -, -, hyields⟩ := hr.exists_candidate hsound hx
  rw [hof.1] at hc
  obtain ⟨d, -, a, b, hclash, hpair⟩ := h.isOfPair_of_gives hc
  have hpolicy := (hyields.policies policy).mp (by rw [hof.2]; exact List.mem_singleton_self _)
  rw [hpair.policies, List.mem_singleton] at hpolicy
  rw [Json.str.inj hpolicy]
  exact ⟨a, b, hclash⟩

/-- Over the graph of a payload detection with the search for contradictions gives a report; unless
identifiers collide, the check of a declared policy names a contradiction exactly where one in the
policy is reported, and then one that cites the named rules is. -/
theorem precheck_iff_contradiction {payload : Json} {passes : Option (List ConflictKind)}
    (hg : (RuleSet.compile cfg payload).outcome = .ok g) (htable : ∀ i ∈ table, i.IsFitting)
    (hpasses : .contradiction ∈ selectedPasses passes)
    (hids : g.HasNoCollisionAmong table (selectedPasses passes)) {policy : String}
    (hpolicy : g.IsInternal policy) :
    ∃ r, (g.detect table passes none).outcome = .ok r ∧
      ((∃ first second subject, g.precheck (.str policy) =
          .error (.contradiction (.str policy) first second subject)) ↔
        ∃ x ∈ r.conflicts, x.IsContradictionIn policy) ∧
      ∀ first second subject, g.precheck (.str policy) =
          .error (.contradiction (.str policy) first second subject) →
        ∃ x ∈ r.conflicts, x.IsContradictionIn policy ∧
          x.citedRules.Perm [first.rule, second.rule] := by
  obtain ⟨p, h, hnamed⟩ := exists_named_plan hg
  obtain ⟨d, hd, rfl⟩ := List.mem_map.mp (h.isInternal_iff.mp hpolicy)
  have hsound : ∀ k ∈ selectedPasses passes, g.PassIsSound table k :=
    fun k _ => h.passIsSound hnamed htable k
  obtain ⟨r, hr, hreport⟩ := h.isLegible.exists_reportOf hsound
  have hnames : ∀ first second subject, g.precheck (.str d.policy) =
      .error (.contradiction (.str d.policy) first second subject) →
        ∃ x ∈ r.conflicts, x.IsContradictionIn d.policy ∧
          x.citedRules.Perm [first.rule, second.rule] := by
    intro first second subject hfault
    rcases h.precheck_cases hd with ⟨hok, -⟩ | ⟨s, hs, b, hb, hclash, x, k, l, hx, -, -, herror⟩
    · rw [hfault] at hok
      cases hok
    · obtain ⟨y, hy, hof, hrules⟩ :=
        hreport.exists_contradiction h hsound hids hpasses hd ⟨s, hs, rfl, hb, hclash⟩
      rw [hfault] at herror
      injection herror with herror
      injection herror with _ hfirst hsecond _
      refine ⟨y, hy, hof, ?_⟩
      rw [hfirst, hsecond]
      rcases hx with rfl | rfl
      · exact hrules
      · exact hrules.trans (.swap _ _ _)
  refine ⟨r, hr, ⟨fun ⟨_, _, _, hfault⟩ => ?_, fun ⟨x, hx, hof⟩ => ?_⟩, hnames⟩
  · exact (hnames _ _ _ hfault).imp fun _ hx => ⟨hx.1, hx.2.1⟩
  · obtain ⟨a, b, s, hs, rfl, hb, hclash⟩ := hreport.exists_clash h hsound hx hof
    rcases h.precheck_cases hd with ⟨-, hno⟩ | ⟨_, _, _, _, _, _, _, _, _, _, _, herror⟩
    · exact absurd hclash (hno s hs b hb)
    · exact ⟨_, _, _, herror⟩

/-- A policy that asks for a status and for any other one is refused, and the contradiction is
reported. -/
theorem precheck_iff_contradiction_rivals : ∃ g r,
    (RuleSet.compile .standard (rivalsPayload .eq "a" .neq "a")).outcome = .ok g ∧
      (g.detect Impossibility.standard (some [.contradiction]) none).outcome = .ok r ∧
      ∃ x ∈ r.conflicts, x.IsContradictionIn "p" := by
  obtain ⟨g, hg, h, hp⟩ : ∃ g, (RuleSet.compile .standard
      (rivalsPayload .eq "a" .neq "a")).outcome = .ok g ∧ g.IsDrawnFrom .standard
        (rivalsPlan .eq "a" .neq "a") ∧ g.IsInternal "p" :=
    exists_rivals rfl (by decide +kernel) rfl (by decide +kernel)
  have hpair : ∀ c, g.Gives Impossibility.standard .contradiction c → ∀ n, n ∈ c.nodes ↔
      n ∈ [Json.str (Node.conditionKey "a"), .str (Node.conditionKey "b")] := by
    intro c hc n
    obtain ⟨d, hd, x, y, ⟨s, hs, rfl, hy, -⟩, hof⟩ := h.isOfPair_of_gives hc
    obtain rfl := List.mem_singleton.mp hd
    have hscenes : (rivalsPlan .eq "a" .neq "a").scenesOf "p" =
        [⟨⟨statusHead "a" .eq "a", true⟩, [⟨statusHead "b" .neq "a", true⟩], ["a"]⟩,
          ⟨⟨statusHead "b" .neq "a", true⟩, [⟨statusHead "a" .eq "a", true⟩], ["b"]⟩] := rfl
    rw [hscenes] at hs
    rw [hof.nodes]
    rcases List.mem_pair.mp hs with rfl | rfl <;> rw [List.mem_singleton.mp hy]
    · rfl
    · exact (List.Perm.swap _ _ _).mem_iff
  have hids : g.HasNoCollisionAmong Impossibility.standard
      (selectedPasses (some [.contradiction])) := by
    have hsound : g.PassIsSound Impossibility.standard .contradiction :=
      h.isLegible.exists_contradictions
    exact hasNoCollisionAmong_singleton fun c hc => ⟨(hsound.isSound hc).kind, hpair c hc⟩
  obtain ⟨r, hr, hiff, -⟩ := precheck_iff_contradiction hg Impossibility.standard_fits
    List.mem_cons_self hids hp
  obtain ⟨f, hf⟩ := h.exists_refusal rfl rfl
  refine ⟨g, r, hg, hr, hiff.mp ?_⟩
  rcases h.precheck_cases (d := { policy := "p", clauses := [{ id := "c" }] }) List.mem_cons_self
    with ⟨hok, -⟩ | ⟨_, _, _, _, _, _, _, _, _, _, _, herror⟩
  · rw [hf] at hok
    cases hok
  · exact ⟨_, _, _, herror⟩

end Agreement

end PolicyGraph
end Eligibility
