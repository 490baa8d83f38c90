import Eligibility.Proofs.CompiledGraph
/-!
# Policies of payloads have names

**Readings.**  A reading without flaws is taken apart into the readings of its parts.

**Names.**  A document is read only if its policy has a name, and a rule stands for a
document only if it has one.  The policies that a payload declares all have names.

**Results.**
* `named_of_read`: the documents of a payload.
* `exists_named_plan`: the plan of a payload that compiles.
-/

namespace Eligibility

theorem Json.mem_of_lookup {k : String} {j : Json} {fs : List (String × Json)}
    (h : lookup k fs = some j) : (k, j) ∈ fs := by
  induction fs with
  | nil => cases h
  | cons f r ih =>
      obtain ⟨k', v⟩ := f
      rw [lookup] at h
      split at h
      · next hk =>
        obtain rfl := Option.some.inj h
        simp [hk]
      · exact List.mem_cons_of_mem _ (ih h)

namespace Schema

variable {α β : Type}

namespace Checked

theorem map_eq_ok {x : Checked α} {f : α → β} {b : β} :
    x.map f = .ok b ↔ ∃ a, x = .ok a ∧ f a = b := by
  cases x <;> simp [map]

theorem ap_eq_ok {f : Checked (α → β)} {x : Checked α} {b : β} :
    f.ap x = .ok b ↔ ∃ k a, f = .ok k ∧ x = .ok a ∧ k a = b := by
  cases f <;> cases x <;> simp [ap]

theorem under_eq_ok {x : Checked α} {s : Hop} {a : α} : x.under s = .ok a ↔ x = .ok a := by
  cases x <;> simp [under]

end Checked

theorem exists_of_required {k : String} {read : Reader α} {fs : List (String × Json)} {a : α}
    (h : required k read fs = .ok a) : ∃ j, (k, j) ∈ fs ∧ read j = .ok a := by
  unfold required at h
  split at h
  · next j hj => exact ⟨j, Json.mem_of_lookup hj, Checked.under_eq_ok.mp h⟩
  · cases h

theorem exists_of_optional {k : String} {standard : α} {read : Reader α}
    {fs : List (String × Json)} {a : α} (h : optional k standard read fs = .ok a) :
    a = standard ∨ ∃ j, (k, j) ∈ fs ∧ read j = .ok a := by
  unfold optional at h
  split at h
  · next j hj => exact .inr ⟨j, Json.mem_of_lookup hj, Checked.under_eq_ok.mp h⟩
  · cases h
    exact .inl rfl

/-- The items of a list that is read are read one by one. -/
theorem exists_of_mem_itemsFrom {read : Reader α} {n : Nat} {js : List Json} {xs : List α}
    (h : itemsFrom read n js = .ok xs) {x : α} (hx : x ∈ xs) : ∃ j ∈ js, read j = .ok x := by
  induction js generalizing n xs with
  | nil =>
      cases h
      simp at hx
  | cons j r ih =>
      obtain ⟨k, ys, hk, hys, rfl⟩ := Checked.ap_eq_ok.mp h
      obtain ⟨y, hy, rfl⟩ := Checked.map_eq_ok.mp hk
      rcases List.mem_cons.mp hx with rfl | hx
      · exact ⟨j, List.mem_cons_self, Checked.under_eq_ok.mp hy⟩
      · obtain ⟨i, hi, hread⟩ := ih hys hx
        exact ⟨i, List.mem_cons_of_mem _ hi, hread⟩

theorem exists_of_mem_sequence {read : Reader α} {j : Json} {xs : List α}
    (h : sequence read j = .ok xs) {x : α} (hx : x ∈ xs) :
    ∃ js, j = .arr js ∧ ∃ i ∈ js, read i = .ok x := by
  unfold sequence listOr at h
  split at h
  · exact ⟨_, rfl, exists_of_mem_itemsFrom h hx⟩
  · cases h

theorem ne_of_nonEmptyText {j : Json} {s : String} (h : nonEmptyText j = .ok s) : s ≠ "" := by
  unfold nonEmptyText at h
  split at h
  · split at h
    · cases h
    · next hne =>
      cases h
      exact hne
  · cases h

end Schema

open Schema

/-- Whether all policies of documents have names. -/
def AreNamed (ds : List Document) : Prop := ∀ d ∈ ds, d.policy ≠ ""

instance (ds : List Document) : Decidable (AreNamed ds) :=
  inferInstanceAs (Decidable (∀ d ∈ ds, d.policy ≠ ""))

/-- A document that is read has a policy with a name. -/
theorem Document.named_of_read {j : Json} {d : Document} (h : read j = .ok d) : d.policy ≠ "" := by
  unfold read record at h
  split at h
  · obtain ⟨_, appliesTo, h5, -, rfl⟩ := Checked.ap_eq_ok.mp h
    obtain ⟨_, prerequisites, h4, -, rfl⟩ := Checked.ap_eq_ok.mp h5
    obtain ⟨_, clauses, h3, -, rfl⟩ := Checked.ap_eq_ok.mp h4
    obtain ⟨_, entity, h2, -, rfl⟩ := Checked.ap_eq_ok.mp h3
    obtain ⟨_, title, h1, -, rfl⟩ := Checked.ap_eq_ok.mp h2
    obtain ⟨policy, hpolicy, rfl⟩ := Checked.map_eq_ok.mp h1
    obtain ⟨j, -, hj⟩ := exists_of_required hpolicy
    exact ne_of_nonEmptyText hj
  · cases h

namespace RuleSet

/-- The documents of a rule set that is read have policies with names. -/
theorem named_of_read {j : Json} {s : RuleSet} (h : read j = .ok s) : AreNamed s.documents := by
  unfold read record at h
  split at h
  · obtain ⟨_, domains, h3, -, rfl⟩ := Checked.ap_eq_ok.mp h
    obtain ⟨_, documents, h2, hdocuments, rfl⟩ := Checked.ap_eq_ok.mp h3
    obtain ⟨_, rules, h1, -, rfl⟩ := Checked.ap_eq_ok.mp h2
    obtain ⟨version, -, rfl⟩ := Checked.map_eq_ok.mp h1
    rcases exists_of_optional hdocuments with rfl | ⟨j, -, hj⟩
    · exact List.forall_mem_nil _
    · intro d hd
      obtain ⟨js, -, j, -, hj⟩ := exists_of_mem_sequence hj hd
      exact Document.named_of_read hj
  · cases h

theorem named_of_ofPayload {payload : Json} {s : RuleSet} (h : ofPayload payload = .ok s) :
    AreNamed s.documents := by
  unfold ofPayload at h
  split at h
  · split at h
    · next hs =>
      cases h
      exact named_of_read hs
    · cases h
  · cases h

/-- Documents and the rules that stand for them have policies with names. -/
theorem named_of_plan {s : RuleSet} {p : Plan} (hs : AreNamed s.documents) (hp : s.plan = .ok p) :
    AreNamed p.documents := by
  unfold plan at hp
  split at hp
  · split at hp
    · cases hp
    next hnone =>
      cases hp
      intro d hd
      have hpolicy : d.policy ∈ s.rules.map Rule.id := by
        rw [← declare_policies []]
        exact List.mem_map_of_mem hd
      obtain ⟨r, hr, hid⟩ := List.mem_map.mp hpolicy
      have hfault := List.findSome?_eq_none_iff.mp hnone r hr
      unfold declarationFault? at hfault
      split_ifs at hfault with hclause hempty
      rwa [hid] at hempty
  · obtain ⟨roots, -, rfl⟩ := Attempt.map_eq_ok.mp hp
    exact hs

end RuleSet

/-- The graph of a payload is drawn from a plan whose policies have names. -/
theorem PolicyGraph.exists_named_plan {cfg : Settings} {payload : Json} {g : PolicyGraph}
    (h : (RuleSet.compile cfg payload).outcome = .ok g) :
    ∃ p, g.IsDrawnFrom cfg p ∧ AreNamed p.documents := by
  obtain ⟨s, hpayload, hs, hg⟩ := exists_of_compile h
  obtain ⟨p, hp, hdrawn⟩ := isDrawnFrom_of_build hs hg
  exact ⟨p, hdrawn,
    RuleSet.named_of_plan (RuleSet.named_of_ofPayload hpayload) (RuleSet.checkedPlan_spec hp).1⟩

end Eligibility
