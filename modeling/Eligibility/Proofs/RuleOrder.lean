import Eligibility.Proofs.ClauseOwners
/-!
# Rules in another order

**Reports.**  With documents the order of the top-level rules decides nothing that a report says.
Without documents it decides which rules own the clauses, and so which policies are compared.

**Statuses.**  Two rules that exclude each other and cite one clause are reported in either order.
Of three rules that cite one clause the first one owns it, so that the two others are not compared.

**Results.**
* `detect_reordered`: reports about rules in another order.
* `not_forall_detect_reordered`: the order of three rules that cite one clause is seen in a report.
-/

namespace Eligibility
namespace PolicyGraph

variable {cfg : Settings} {g : PolicyGraph}

section Reports

variable {payload payload' : Json} {s t : RuleSet} {table : List Impossibility}

/-- What is accepted is compiled from a plan whose policies have names. -/
theorem exists_compile_of_parse (hs : RuleSet.parse cfg payload = .ok s) :
    ∃ g p, (RuleSet.compile cfg payload).outcome = .ok g ∧ s.plan = .ok p ∧
      g.IsDrawnFrom cfg p ∧ AreNamed p.documents := by
  obtain ⟨hpayload, hvalid⟩ := RuleSet.parse_eq_ok.mp hs
  obtain ⟨p, g, hp, hbuild, hg, -⟩ := RuleSet.exists_build_of_validate hvalid
  exact ⟨g, p, (outcome_compile hpayload hvalid).trans hbuild, hp, hg,
    RuleSet.named_of_plan (RuleSet.named_of_ofPayload hpayload) hp⟩

/-- Reports about accepted rule sets with the same documents and the same top-level rules in another
order name the same conflicts and suppress as many candidates; unless identifiers collide, they say
the same.  Without documents, passes that compare policies are run only where the same rules are
linked by clauses in both orders. -/
theorem detect_reordered (hs : RuleSet.parse cfg payload = .ok s)
    (ht : RuleSet.parse cfg payload' = .ok t) (hdocuments : t.documents = s.documents)
    (hrules : t.rules.Perm s.rules) (htable : ∀ i ∈ table, i.IsFitting)
    {passes : Option (List ConflictKind)}
    (hlinks : s.documents = [] → .exclusion ∈ selectedPasses passes ∨
      .incompatibleThreshold ∈ selectedPasses passes →
        ∀ a ∈ s.rules, ∀ b ∈ s.rules, s.Links a b ↔ t.Links a b) :
    ∃ g h r u, (RuleSet.compile cfg payload).outcome = .ok g ∧
      (RuleSet.compile cfg payload').outcome = .ok h ∧
      (g.detect table passes none).outcome = .ok r ∧
      (h.detect table passes none).outcome = .ok u ∧ r.NamesAs u ∧
      (g.HasNoCollisionAmong table (selectedPasses passes) → r.SaysAs u) := by
  obtain ⟨g, p, hcompile, hp, hg, hnamed⟩ := exists_compile_of_parse hs
  obtain ⟨h, q, hcompile', hq, hh, hnamed'⟩ := exists_compile_of_parse ht
  have hsaccepted := RuleSet.isAccepted_of_parse hs
  have htaccepted := RuleSet.isAccepted_of_parse ht
  have hpq := RuleSet.rearranges_of_plan hp hq hdocuments hrules
  obtain ⟨ts, hts, hagrees⟩ := hpq.exists_tenets cfg
  have hresembles := hg.hasTenets.resembles hh.hasTenets hts hagrees
  obtain ⟨hresembles, hdepends, hscopes⟩ : g.Resembles h ∧ g.SharesDependencies h ∧
      (.exclusion ∈ selectedPasses passes ∨ .incompatibleThreshold ∈ selectedPasses passes →
        g.SharesScopes h) := by
    by_cases hnone : s.documents = []
    · have hnone' := hdocuments.trans hnone
      refine ⟨hresembles (fun a => ?_) fun n => Bool.eq_iff_iff.mpr ?_,
        sharesDependencies_of_bare hg hh hpq (RuleSet.documents_of_bare hp hnone).2
          (RuleSet.documents_of_bare hq hnone').2,
        fun hcompares => sharesScopes_of_links hg hh hsaccepted htaccepted hp hq hnone hnone'
          hrules (hlinks hnone hcompares)⟩
      · rw [hasPolicy_iff_of_bare hg hp hnone, hasPolicy_iff_of_bare hh hq hnone']
        simp only [hrules.mem_iff]
      · rw [hasClause_iff_of_bare hg hsaccepted hp hnone,
          hasClause_iff_of_bare hh htaccepted hq hnone']
        simp only [hrules.mem_iff]
    · have hmode := (RuleSet.plan_spec hp).2
      have hmode' := (RuleSet.plan_spec hq).2
      rw [hdocuments] at hmode'
      rw [if_neg hnone] at hmode hmode'
      have hconnects := connects_of_documents hg hh hpq (hmode.1.trans hmode'.1.symm)
      exact ⟨hresembles hconnects.policies hconnects.clauses,
        hconnects.sharesDependencies hg.isLegible hh.isLegible,
        fun _ => hconnects.sharesScopes hg.isLegible hh.isLegible⟩
  obtain ⟨r, u, hr, hu, hreports⟩ := detect_saysAs hg.isLegible hh.isLegible
    (hg.hasNamedSources hnamed) (hh.hasNamedSources hnamed') hg.hasTenets.isOwned
    hh.hasTenets.isOwned htable hresembles hdepends hscopes
  exact ⟨g, h, r, u, hcompile, hcompile', hr, hu, hreports⟩

end Reports

section Statuses

/-- Top-level comparisons of a status with texts, all of which cite one clause. -/
def statuses (xs : List (String × Operator)) : RuleSet where
  rules := xs.map fun x => .node (statusHead x.1 x.2 x.1) []

def statusesPlan (xs : List (String × Operator)) : Plan :=
  ⟨RuleSet.declare [] (statuses xs).rules, (statuses xs).rules.map fun r => (r.id, r)⟩

/-- The payload of top-level comparisons of a status with texts. -/
def statusesPayload (xs : List (String × Operator)) : Json :=
  .obj [("rules", .arr (xs.map fun x => statusPayload x.1 x.2 x.1))]

/-- The policies that the candidates of all passes involve, where these are texts. -/
def suspects (g : PolicyGraph) : List (Option (List (Option (List String)))) :=
  ConflictKind.all.map fun k => (g.candidates Impossibility.standard k).toOption.map fun cs =>
    cs.map fun c => Name.texts? c.policies

/-- The candidates of a graph where only one pass has one, which involves two policies. -/
theorem exists_suspect (hsuspects : suspects g =
      [some [], some [some ["a", "b"]], some [], some [], some []]) :
    ∃ c, c.policies = [.str "a", .str "b"] ∧
      ∀ k d, g.Gives Impossibility.standard k d ↔ k = .exclusion ∧ d = c := by
  have hgiven : ∀ {x : Except Fault (List Candidate)} {ys : List (Option (List String))},
      (x.toOption.map fun cs => cs.map fun c => Name.texts? c.policies) = some ys →
        ∃ cs, x = .ok cs ∧ cs.map (fun c => Name.texts? c.policies) = ys := by
    intro x ys hx
    cases x with
    | error f => cases hx
    | ok cs => exact ⟨cs, rfl, Option.some.inj hx⟩
  simp only [suspects, ConflictKind.all, List.map_cons, List.map_nil, List.cons.injEq, and_true]
    at hsuspects
  obtain ⟨hcontradiction, hexclusion, hcircularity, hthreshold, himpossibility⟩ := hsuspects
  obtain ⟨cs, hcs, hpolicies⟩ := hgiven hexclusion
  obtain ⟨c, rfl, hc⟩ := List.map_eq_singleton_iff.mp hpolicies
  have hnone : ∀ {k : ConflictKind} {d : Candidate},
      ((g.candidates Impossibility.standard k).toOption.map fun cs =>
        cs.map fun c => Name.texts? c.policies) = some [] → ¬ g.Gives Impossibility.standard k d := by
    rintro k d hk ⟨ds, hds, hd⟩
    obtain ⟨cs, hcs, hnil⟩ := hgiven hk
    obtain rfl := Except.ok.inj (hcs.symm.trans hds)
    rw [List.map_eq_nil_iff.mp hnil] at hd
    cases hd
  refine ⟨c, Name.eq_strs_of_texts? hc, fun k d => ?_⟩
  cases k with
  | contradiction => exact iff_of_false (hnone hcontradiction) (by simp)
  | circularity => exact iff_of_false (hnone hcircularity) (by simp)
  | incompatibleThreshold => exact iff_of_false (hnone hthreshold) (by simp)
  | impossibility => exact iff_of_false (hnone himpossibility) (by simp)
  | exclusion =>
      constructor
      · rintro ⟨ds, hds, hd⟩
        obtain rfl := Except.ok.inj (hcs.symm.trans hds)
        exact ⟨rfl, List.mem_singleton.mp hd⟩
      · rintro ⟨-, rfl⟩
        exact ⟨[d], hcs, List.mem_singleton_self d⟩

theorem parse_statuses {xs : List (String × Operator)}
    (hpayload : RuleSet.ofPayload (statusesPayload xs) = .ok (statuses xs))
    (hs : (statuses xs).fault? .standard = none) :
    RuleSet.parse .standard (statusesPayload xs) = .ok (statuses xs) := by
  simp only [RuleSet.parse, hpayload, RuleSet.validate, hs]

/-- Where only one pass has one candidate, which involves two policies, a conflict is reported
exactly if these are linked. -/
theorem exists_statuses (xs : List (String × Operator))
    (hpayload : RuleSet.ofPayload (statusesPayload xs) = .ok (statuses xs))
    (hs : (statuses xs).fault? .standard = none)
    (hplan : (statuses xs).checkedPlan = .ok (statusesPlan xs))
    (hfault : fault? ((statusesPlan xs).nodes .standard) (statusesPlan xs).edges = none)
    (hsuspects : (RuleSet.compile .standard (statusesPayload xs)).outcome.toOption.map suspects =
      some [some [], some [some ["a", "b"]], some [], some [], some []]) :
    ∃ g r, RuleSet.parse .standard (statusesPayload xs) = .ok (statuses xs) ∧
      (RuleSet.compile .standard (statusesPayload xs)).outcome = .ok g ∧
      (g.detect Impossibility.standard none none).outcome = .ok r ∧
      g.HasNoCollisionAmong Impossibility.standard (selectedPasses none) ∧
      (r.conflicts = [] ↔ ¬ ∃ d ∈ (statusesPlan xs).drafts, d.Links "a" "b") := by
  obtain ⟨g, hvalid, hbuild, h⟩ := exists_build hs hplan hfault
  have hplan' := (RuleSet.checkedPlan_spec hplan).1
  have hcompile := (outcome_compile hpayload hvalid).trans hbuild
  rw [hcompile] at hsuspects
  obtain ⟨c, hpolicies, hgives⟩ := exists_suspect (Option.some.inj hsuspects)
  have hnamed : AreNamed (statusesPlan xs).documents :=
    RuleSet.named_of_plan (s := statuses xs) (List.forall_mem_nil _) hplan'
  have hsound := h.passIsSound hnamed Impossibility.standard_fits
  have hc := (hsound .exclusion).isSound ((hgives .exclusion c).mpr ⟨rfl, rfl⟩)
  have hpolicy : ∀ a, Json.str a ∈ c.policies → g.HasPolicy a := by
    intro a ha
    obtain ⟨s, hs, hpolicy⟩ := hc.policies _ ha
    rwa [Json.str.inj hs]
  have hscope : c.checkScope g = .ok () ↔ g.IsLinked "a" "b" := by
    rw [hc.checkScope_iff_isLinked fun x y hx hy hne => ?_]
    · constructor
      · exact fun hall => hall "a" "b" (by simp [hpolicies]) (by simp [hpolicies]) (by decide)
      · intro hlinked x y hx hy hne
        have hof : ∀ z, Json.str z ∈ c.policies → z = "a" ∨ z = "b" := fun z hz => by
          simpa [hpolicies] using hz
        rcases hof x hx with rfl | rfl <;> rcases hof y hy with rfl | rfl
        · exact absurd rfl hne
        · exact hlinked
        · exact hlinked.symm
        · exact absurd rfl hne
    · rw [h.isLegible.checkScope_eq_ok_iff _ (hpolicy x hx) (hpolicy y hy),
        entityOf_of_bare h hplan' rfl (hpolicy x hx), entityOf_of_bare h hplan' rfl (hpolicy y hy)]
      simp [hne]
  obtain ⟨r, hr, hreport⟩ := h.isLegible.exists_report hsound
  refine ⟨g, r, parse_statuses hpayload hs, hcompile, hr, ?_, ?_⟩
  · intro k _ l _ d e id hd he _ _
    obtain ⟨rfl, rfl⟩ := (hgives k d).mp hd
    obtain ⟨rfl, rfl⟩ := (hgives l e).mp he
    exact ⟨rfl, fun _ => Iff.rfl⟩
  · rw [← h.isLinked_iff, ← hscope, List.eq_nil_iff_forall_not_mem]
    constructor
    · intro hnone hok
      obtain ⟨x, hx, -⟩ := hc.exists_conflict
      obtain ⟨y, hy, -⟩ := hreport.complete .exclusion (by decide) c x
        ((hgives .exclusion c).mpr ⟨rfl, rfl⟩) ⟨hok, hx⟩
      exact hnone y hy
    · intro hno x hx
      obtain ⟨k, -, d, hd, hreceives⟩ := hreport.sound x hx
      obtain ⟨rfl, rfl⟩ := (hgives k d).mp hd
      exact hno hreceives.1

/-- Two rules that exclude each other and cite one clause are reported in either order. -/
theorem detect_reordered_pair : ∃ g h r u,
    (RuleSet.compile .standard (statusesPayload [("a", .eq), ("b", .eq)])).outcome = .ok g ∧
      (RuleSet.compile .standard (statusesPayload [("b", .eq), ("a", .eq)])).outcome = .ok h ∧
      (g.detect Impossibility.standard none none).outcome = .ok r ∧
      (h.detect Impossibility.standard none none).outcome = .ok u ∧
      r.conflicts ≠ [] ∧ r.SaysAs u := by
  obtain ⟨g, r, hs, hg, hr, hids, hreported⟩ :=
    exists_statuses [("a", .eq), ("b", .eq)] rfl (by decide +kernel) rfl
      (by decide +kernel) (by decide +kernel)
  have ht : RuleSet.parse .standard (statusesPayload [("b", .eq), ("a", .eq)]) =
      .ok (statuses [("b", .eq), ("a", .eq)]) := parse_statuses rfl (by decide +kernel)
  have hrules : (statuses [("b", .eq), ("a", .eq)]).rules.Perm
      (statuses [("a", .eq), ("b", .eq)]).rules := .swap _ _ _
  have hfew : ∀ c, ∀ x ∈ (statuses [("a", .eq), ("b", .eq)]).rules,
      ∀ y ∈ (statuses [("a", .eq), ("b", .eq)]).rules,
      ∀ z ∈ (statuses [("a", .eq), ("b", .eq)]).rules, x.cites c = true → y.cites c = true →
        z.cites c = true → x = y ∨ y = z ∨ x = z := by
    intro c x hx y hy z hz _ _ _
    rcases List.mem_pair.mp hx with rfl | rfl <;> rcases List.mem_pair.mp hy with rfl | rfl <;>
      rcases List.mem_pair.mp hz with rfl | rfl <;> simp
  have hlinks : ∀ a ∈ (statuses [("a", .eq), ("b", .eq)]).rules,
      ∀ b ∈ (statuses [("a", .eq), ("b", .eq)]).rules,
        (statuses [("a", .eq), ("b", .eq)]).Links a b ↔
          (statuses [("b", .eq), ("a", .eq)]).Links a b := fun a ha b hb =>
    RuleSet.links_iff_of_few (RuleSet.isAccepted_of_parse hs) (RuleSet.isAccepted_of_parse ht) rfl
      rfl hrules hfew ha hb
  obtain ⟨g', h, r', u, hg', hh, hr', hu, -, hsays⟩ := detect_reordered hs ht rfl hrules
    Impossibility.standard_fits fun _ _ => hlinks
  obtain rfl := Except.ok.inj (hg.symm.trans hg')
  obtain rfl := Except.ok.inj (hr.symm.trans hr')
  refine ⟨g, h, r, u, hg, hh, hr, hu, fun hnil => hreported.mp hnil (by decide +kernel), hsays hids⟩

/-- Of three rules that cite one clause the first one owns it, so that the order of the rules
decides whether two others that exclude each other are reported. -/
theorem not_forall_detect_reordered : ¬ ∀ (payload payload' : Json) (s t : RuleSet),
    RuleSet.parse .standard payload = .ok s → RuleSet.parse .standard payload' = .ok t →
      t.documents = s.documents → t.rules.Perm s.rules → ∀ g h r u,
      (RuleSet.compile .standard payload).outcome = .ok g →
      (RuleSet.compile .standard payload').outcome = .ok h →
      (g.detect Impossibility.standard none none).outcome = .ok r →
      (h.detect Impossibility.standard none none).outcome = .ok u →
        (∀ id, id ∈ r.conflicts.map Conflict.id ↔ id ∈ u.conflicts.map Conflict.id) ∧
          r.suppressed = u.suppressed := by
  intro hall
  obtain ⟨g, r, hs, hg, hr, -, hreported⟩ :=
    exists_statuses [("r", .neq), ("a", .eq), ("b", .eq)] rfl (by decide +kernel) rfl
      (by decide +kernel) (by decide +kernel)
  obtain ⟨h, u, ht, hh, hu, -, hreported'⟩ :=
    exists_statuses [("a", .eq), ("r", .neq), ("b", .eq)] rfl (by decide +kernel) rfl
      (by decide +kernel) (by decide +kernel)
  have hnone : r.conflicts = [] := hreported.mpr (by decide +kernel)
  have hids := (hall _ _ _ _ hs ht rfl (.swap _ _ _) g h r u hg hh hr hu).1
  refine hreported'.not.mpr (not_not.mpr (by decide +kernel)) (List.eq_nil_iff_forall_not_mem.mpr
    fun x hx => ?_)
  have hmem := (hids x.id).mpr (List.mem_map_of_mem hx)
  rw [hnone] at hmem
  cases hmem

end Statuses

end PolicyGraph
end Eligibility
