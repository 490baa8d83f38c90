import Eligibility.Proofs.Disclosure
import Eligibility.Proofs.Locality
import Eligibility.Proofs.Passes
import Eligibility.Proofs.Readings
/-!
# Sweeps and evaluations

**Inputs.**  Inputs with proper values are read as they are, and stay proper when a variable is
set.

**One mapping.**  A sweep works on one mapping, in which every value takes the place of the one
before.  Setting a variable twice is setting it once, so each simulation sees what it would see on
a fresh copy, and no other mapping is touched.

**Agreement.**  A simulation has the verdict that evaluating each policy has, and the first fault
among them; a sweep has those of its simulations.

**Results.**
* `Schema.input_ok_iff`: the values that inputs can have.
* `PolicyGraph.sweepAt_fst`: one mapping does as well as a fresh one for each value.
* `PolicyGraph.sweepAt_frame`: mappings at other places stay as they are.
* `PolicyGraph.sweepOn_evaluates`: a sweep against evaluations, one by one.
-/

namespace Eligibility
open Schema

section Fields

namespace Json

theorem lookup_put (k y : String) (v : Json) (fs : List (String × Json)) :
    lookup y (put k v fs) = if y = k then some v else lookup y fs := by
  by_cases hy : y = k
  · rw [if_pos hy, hy, lookup_put_same]
  rw [if_neg hy]
  induction fs with
  | nil => simp [put, lookup, Ne.symm hy]
  | cons f r ih =>
      obtain ⟨k', w⟩ := f
      by_cases hk : k' = k
      · simp [put, lookup, hk, Ne.symm hy]
      · simp only [put, hk, if_false, lookup, ih]

/-- Whether a value can be an input: a truth value, a number, a text or a list of texts. -/
inductive IsInput : Json → Prop
  | bool (b : Bool) : IsInput (.bool b)
  | int (n : Int) : IsInput (.int n)
  | float (x : Number) : IsInput (.float x)
  | str (s : String) : IsInput (.str s)
  | strs (ss : List String) : IsInput (.strs ss)

/-- Whether the values of all fields can be inputs. -/
def AreInputs (fs : List (String × Json)) : Prop := ∀ f ∈ fs, f.2.IsInput

theorem AreInputs.put {fs : List (String × Json)} (h : AreInputs fs) {v : Json} (hv : v.IsInput)
    (k : String) : AreInputs (Json.put k v fs) := by
  induction fs with
  | nil => simpa [AreInputs, Json.put] using hv
  | cons f r ih =>
      obtain ⟨hf, hr⟩ := List.forall_mem_cons.mp h
      rw [Json.put]
      split
      · exact List.forall_mem_cons.mpr ⟨hv, hr⟩
      · exact List.forall_mem_cons.mpr ⟨hf, ih hr⟩

end Json

namespace Entries

variable {α : Type}

/-- A value that is set again replaces the one that was set before. -/
theorem put_put (x : String) (v w : α) (es : Entries α) :
    (es.put (.str x) v).put (.str x) w = es.put (.str x) w := by
  induction es with
  | nil => simp [put]
  | cons e r ih =>
      obtain ⟨n, u⟩ := e
      by_cases hn : n.alike (.str x) = true
      · simp [put, hn]
      · simp [put, hn, ih]

theorem ofFields_put (x : String) (v : Json) (fs : List (String × Json)) :
    (ofFields fs).put (.str x) v = ofFields (Json.put x v fs) := by
  induction fs with
  | nil => rfl
  | cons f r ih =>
      obtain ⟨k, u⟩ := f
      rw [ofFields] at ih
      by_cases hk : k = x
      · simp [ofFields, put, Json.put, hk]
      · simp [ofFields, put, Json.put, hk, ih]

end Entries

end Fields

namespace Schema

section Inputs

theorem textItemFlaws_strs (n : Nat) (ss : List String) :
    textItemFlaws n (ss.map .str) = [] := by
  induction ss generalizing n with
  | nil => rfl
  | cons s r ih => exact ih (n + 1)

theorem exists_of_textItemFlaws {n : Nat} {xs : List Json} (h : textItemFlaws n xs = []) :
    ∃ ss : List String, xs = ss.map .str := by
  induction xs generalizing n with
  | nil => exact ⟨[], rfl⟩
  | cons x r ih =>
      cases x with
      | str s =>
          obtain ⟨ss, rfl⟩ := ih h
          exact ⟨s :: ss, rfl⟩
      | _ => cases h

/-- A value is read as it is exactly if it can be an input. -/
theorem input_ok_iff {j : Json} : input j = .ok j ↔ j.IsInput := by
  cases j with
  | null => constructor <;> intro h <;> cases h
  | obj fs => constructor <;> intro h <;> cases h
  | bool b => exact ⟨fun _ => .bool b, fun _ => rfl⟩
  | int n => exact ⟨fun _ => .int n, fun _ => rfl⟩
  | float x => exact ⟨fun _ => .float x, fun _ => rfl⟩
  | str s => exact ⟨fun _ => .str s, fun _ => rfl⟩
  | arr xs =>
      constructor
      · intro h
        simp only [input] at h
        split at h
        next hxs =>
          obtain ⟨ss, rfl⟩ := exists_of_textItemFlaws hxs
          exact .strs ss
        next => cases h
      · rintro ⟨ss⟩
        rw [input, textItemFlaws_strs]

theorem inputs_of_areInputs {fs : List (String × Json)} (h : Json.AreInputs fs) :
    inputs (.obj fs) = .ok fs := by
  rw [inputs, mapping]
  induction fs with
  | nil => rfl
  | cons f r ih =>
      obtain ⟨hf, hr⟩ := List.forall_mem_cons.mp h
      rw [entries, input_ok_iff.mpr hf, ih hr]
      rfl

end Inputs

end Schema

section Queries

/-- A query as a record. -/
def Query.toJson (q : Query) : Json :=
  .obj [("policy_id", .str q.policy), ("user_inputs", .obj q.inputs)]

theorem Query.read_toJson {q : Query} (hpolicy : q.policy ≠ "")
    (hinputs : Json.AreInputs q.inputs) :
    Query.read q.toJson = .ok q := by
  simp [Query.read, Query.toJson, Schema.record, Schema.required, Schema.optional, Json.lookup,
    Schema.nonEmptyText, hpolicy, inputs_of_areInputs hinputs]

end Queries

namespace PolicyGraph

variable {cfg settings : Settings} {g : PolicyGraph} {p : Plan}

section Simulations

variable {fs fs' : List (String × Json)} {ps : List String}

/-- The verdict on a policy with one variable set in the inputs. -/
def askWith (settings : Settings) (g : PolicyGraph) (fs : List (String × Json)) (x : String)
    (v : Json) (a : String) : Logged Verdict :=
  g.ask settings (Query.toJson ⟨a, Json.put x v fs⟩)

theorem outcome_askWith {a x : String} {v : Json} (ha : a ≠ "") (hfs : Json.AreInputs fs)
    (hv : v.IsInput) :
    (g.askWith settings fs x v a).outcome = g.verdict settings (Json.put x v fs) (.str a) := by
  have hread := Query.read_toJson (q := ⟨a, Json.put x v fs⟩) ha (hfs.put hv x)
  rw [askWith, ask, hread, answerChecked, answer, run_outcome]

/-- A run over policies is a traversal. -/
theorem outcome_runAll (inputs : Inputs) (ns : List Name) :
    (g.runAll settings inputs ns).outcome = ns.mapM (g.verdict settings inputs) := by
  induction ns with
  | nil => rfl
  | cons n r ih =>
      rw [runAll, Logged.outcome_bind, run_outcome, List.mapM_cons]
      cases g.verdict settings inputs n with
      | error f => rfl
      | ok v =>
          rw [Attempt.ok_bind, Attempt.ok_bind, Logged.outcome_bind, ih]
          rfl

/-- Verdicts on different policies are all kept. -/
theorem byPolicy_of_nodup {vs : List Verdict} (h : (vs.map Verdict.policy).Nodup) :
    byPolicy vs = vs.map fun v => (v.policy, v) := by
  induction vs using List.reverseRecOn with
  | nil => rfl
  | append_singleton vs v ih =>
      rw [List.map_append, List.nodup_append] at h
      obtain ⟨hvs, -, hapart⟩ := h
      have hnew : (byPolicy vs).any (·.1 = v.policy) = false := by
        rw [ih hvs, List.any_eq_false]
        intro e he hname
        obtain ⟨w, hw, rfl⟩ := List.mem_map.mp he
        exact hapart _ (List.mem_map_of_mem hw) _ List.mem_cons_self (by simpa using hname)
      rw [byPolicy_append, hnew, if_neg (by simp), ih hvs, List.map_append]
      rfl

theorem checkInputs_ofFields (hfs : Json.AreInputs fs) :
    checkInputs (Entries.ofFields fs) = .ok fs := by
  rw [checkInputs, inputEntries_ofFields, inputs_of_areInputs hfs]

/-- A simulation goes through the policies and pairs each with its verdict. -/
theorem outcome_simulate (hps : g.policyIds false = ps.map .str) (hdistinct : ps.Nodup)
    (hfs : Json.AreInputs fs) :
    (g.simulate settings (Entries.ofFields fs)).outcome =
      ps.mapM fun a => (g.verdict settings fs (.str a)).map (a, ·) := by
  rw [simulate, checkInputs_ofFields hfs, Logged.outcome_bind, Logged.ofExcept, Attempt.ok_bind,
    Logged.outcome_bind, outcome_runAll, hps, List.mapM_map]
  cases hall : ps.mapM (g.verdict settings fs ∘ Json.str) with
  | error f =>
      obtain ⟨earlier, a, later, hsplit, hearlier, ha⟩ := Attempt.mapM_eq_error.mp hall
      refine (Attempt.mapM_eq_error.mpr ⟨earlier, a, later, hsplit, fun b hb => ?_, ?_⟩).symm
      · obtain ⟨w, hw⟩ := hearlier b hb
        exact ⟨(b, w), Attempt.map_eq_ok.mpr ⟨w, hw, rfl⟩⟩
      · rw [← Function.comp_apply (f := g.verdict settings fs), ha, Attempt.map_error]
  | ok vs =>
      have hverdicts := Attempt.mapM_eq_ok.mp hall
      have hnames : vs.map Verdict.policy = ps.map id :=
        Attempt.map_eq_map_of_forall₂ (hverdicts.imp fun _ _ hv =>
          (Json.str.inj (policy_of_verdict hv)).symm)
      rw [List.map_id] at hnames
      have hkept : byPolicy vs = vs.map fun v => (v.policy, v) :=
        byPolicy_of_nodup (hnames ▸ hdistinct)
      refine Eq.trans (b := .ok (byPolicy vs)) rfl (Attempt.mapM_eq_ok.mpr ?_).symm
      rw [hkept, List.forall₂_map_right_iff]
      refine hverdicts.imp fun a v hv => Attempt.map_eq_ok.mpr ⟨v, hv, ?_⟩
      rw [Json.str.inj (policy_of_verdict hv)]

/-- Inputs that agree on every variable lead to the same simulation. -/
theorem IsDrawnFrom.simulate_congr (h : g.IsDrawnFrom cfg p) (hfs : Json.AreInputs fs)
    (hfs' : Json.AreInputs fs') (hagree : ∀ y, Json.lookup y fs' = Json.lookup y fs) :
    g.simulate settings (Entries.ofFields fs') = g.simulate settings (Entries.ofFields fs) := by
  have hconcurs : ∀ d ∈ p.documents, g.Concurs g p fs fs' d := fun d _ =>
    ⟨rfl, rfl, fun _ _ => rfl, fun r _ _ => by rw [inputFor, inputFor, hagree]⟩
  have hall : ∀ ns, ns ⊆ g.policyIds false →
      g.runAll settings fs' ns = g.runAll settings fs ns := by
    intro ns hns
    induction ns with
    | nil => rfl
    | cons n r ih =>
        obtain ⟨hn, hr⟩ := List.cons_subset.mp hns
        obtain ⟨d, hd, rfl⟩ := h.exists_of_mem_policyIds hn
        rw [runAll, runAll, ih hr, h.run_eq h.hasTreesOf (fun e he _ => hconcurs e he) hn rfl
          h.length_documents_le settings]
  rw [simulate, simulate, checkInputs_ofFields hfs, checkInputs_ofFields hfs']
  simp only [Logged.ofExcept, Logged.bind, hall _ (List.Subset.refl _)]

end Simulations

section OneMapping

variable {d : Desk} {place : Nat} {x : String}

/-- The verdicts on all policies for each value of one variable, which is set in a fresh copy of the
inputs every time. -/
def sweepAfresh (settings : Settings) (g : PolicyGraph) (inputs : Entries Json) (x : String) :
    List Json → Logged (List SweepRow)
  | [] => Logged.pure []
  | v :: r => (g.simulate settings (inputs.put (.str x) v)).bind fun vs =>
      (sweepAfresh settings g inputs x r).bind fun rows => Logged.pure ((v, vs) :: rows)

theorem vary_str (d : Desk) (place : Nat) (x : String) (v : Json) :
    vary d place (.str x) v = .ok (d.set place ((mappingAt d place).put (.str x) v)) := rfl

theorem mappingAt_set (hplace : place < d.length) (m : Entries Json) :
    mappingAt (d.set place m) place = m := by
  simp [mappingAt, hplace]

/-- A value that was set before leaves no trace. -/
theorem sweepAfresh_put (inputs : Entries Json) (w : Json) (vs : List Json) :
    g.sweepAfresh settings (inputs.put (.str x) w) x vs = g.sweepAfresh settings inputs x vs := by
  induction vs with
  | nil => rfl
  | cons v r ih => rw [sweepAfresh, sweepAfresh, Entries.put_put, ih]

/-- One mapping, in which every value takes the place of the one before, does as well as a fresh
copy for each value. -/
theorem sweepAt_fst (hplace : place < d.length) (vs : List Json) :
    (g.sweepAt settings place (.str x) vs d).1 =
      g.sweepAfresh settings (mappingAt d place) x vs := by
  induction vs generalizing d with
  | nil => rfl
  | cons v r ih =>
      rw [sweepAt, vary_str, sweepAfresh]
      simp only [mappingAt_set hplace]
      cases hrow : (g.simulate settings ((mappingAt d place).put (.str x) v)).outcome with
      | error f => simp only [Logged.bind, hrow]
      | ok row =>
          have hset : place < (d.set place ((mappingAt d place).put (.str x) v)).length := by
            rwa [List.length_set]
          simp only [ih hset, mappingAt_set hplace, sweepAfresh_put, Logged.bind, hrow]

/-- A sweep touches no mapping but the one it works on, however it ends. -/
theorem sweepAt_frame (subject : Name) (vs : List Json) {i : Nat} (hi : i ≠ place) :
    (g.sweepAt settings place subject vs d).2[i]? = d[i]? := by
  induction vs generalizing d with
  | nil => rfl
  | cons v r ih =>
      rw [sweepAt]
      cases hvaried : vary d place subject v with
      | error f => rfl
      | ok varied =>
          have hsame : varied[i]? = d[i]? := by
            unfold vary at hvaried
            split at hvaried
            · cases hvaried
              exact List.getElem?_set_ne hi.symm
            · cases hvaried
          cases hrow : (g.simulate settings (mappingAt varied place)).outcome with
          | error f => simpa only [hrow] using hsame
          | ok row => simpa only [hrow] using ih.trans hsame

/-- A sweep over a copy is one with a fresh copy of the inputs for each value. -/
theorem sweepOn_fst (place : Nat) (vs : List Json) (d : Desk) :
    (g.sweepOn settings place (.str x) vs d).1 =
      g.sweepAfresh settings (mappingAt d place) x vs := by
  rw [sweepOn, sweepAt_fst (by simp)]
  simp [mappingAt]

/-- A sweep over a copy leaves all mappings as they were. -/
theorem sweepOn_frame (place : Nat) (subject : Name) (vs : List Json) {i : Nat}
    (hi : i < d.length) : (g.sweepOn settings place subject vs d).2[i]? = d[i]? := by
  rw [sweepOn, sweepAt_frame subject vs hi.ne, List.getElem?_append_left hi]

end OneMapping

section Agreement

variable {fs : List (String × Json)} {ps : List String} {x : String}

/-- A value with the verdicts on policies for it, which are evaluated one by one up to the first
fault. -/
def evaluateEach (settings : Settings) (g : PolicyGraph) (ps : List String)
    (fs : List (String × Json)) (x : String) (v : Json) : Except Fault SweepRow :=
  (ps.mapM fun a => (g.askWith settings fs x v a).outcome.map (a, ·)).map (v, ·)

theorem evaluateEach_eq_ok {v : Json} {row : SweepRow} :
    g.evaluateEach settings ps fs x v = .ok row ↔ row.1 = v ∧
      List.Forall₂ (fun a entry => entry.1 = a ∧
        (g.askWith settings fs x v a).outcome = .ok entry.2) ps row.2 := by
  simp only [evaluateEach, Attempt.map_pair_eq_ok, Attempt.mapM_eq_ok]

theorem evaluateEach_eq_error {v : Json} {f : Fault} :
    g.evaluateEach settings ps fs x v = .error f ↔ ∃ earlier a later, ps = earlier ++ a :: later ∧
      (∀ b ∈ earlier, ∃ u, (g.askWith settings fs x v b).outcome = .ok u) ∧
      (g.askWith settings fs x v a).outcome = .error f := by
  simp only [evaluateEach, Attempt.map_eq_error, Attempt.mapM_eq_error, Attempt.exists_map_iff]

theorem exists_evaluateEach {v : Json} : (∃ row, g.evaluateEach settings ps fs x v = .ok row) ↔
    ∀ a ∈ ps, ∃ u, (g.askWith settings fs x v a).outcome = .ok u := by
  simp only [evaluateEach, Attempt.exists_map_iff, Attempt.exists_mapM_iff]

/-- A sweep goes through the values, and for each of them through the policies. -/
theorem outcome_sweepAfresh (hps : g.policyIds false = ps.map .str) (hdistinct : ps.Nodup)
    (hnamed : ∀ a ∈ ps, a ≠ "") (hfs : Json.AreInputs fs) {vs : List Json}
    (hvs : ∀ v ∈ vs, v.IsInput) :
    (g.sweepAfresh settings (Entries.ofFields fs) x vs).outcome =
      vs.mapM (g.evaluateEach settings ps fs x) := by
  induction vs with
  | nil => rfl
  | cons v r ih =>
      obtain ⟨hv, hr⟩ := List.forall_mem_cons.mp hvs
      have hrow : (g.simulate settings ((Entries.ofFields fs).put (.str x) v)).outcome =
          ps.mapM fun a => (g.askWith settings fs x v a).outcome.map (a, ·) := by
        rw [Entries.ofFields_put, outcome_simulate hps hdistinct (hfs.put hv x)]
        exact Attempt.mapM_congr fun a ha => by rw [outcome_askWith (hnamed a ha) hfs hv]
      rw [sweepAfresh, Logged.outcome_bind, hrow, List.mapM_cons, evaluateEach]
      cases ps.mapM fun a => (g.askWith settings fs x v a).outcome.map (a, ·) with
      | error f => rfl
      | ok row =>
          rw [Attempt.ok_bind, Logged.outcome_bind, ih hr]
          rfl

/-- What the inputs hold for the variable of a sweep does not matter. -/
theorem IsDrawnFrom.sweepAfresh_congr {p : Plan} (h : g.IsDrawnFrom cfg p)
    {fs' : List (String × Json)} (hfs : Json.AreInputs fs) (hfs' : Json.AreInputs fs')
    (hagree : ∀ y, y ≠ x → Json.lookup y fs' = Json.lookup y fs) {vs : List Json}
    (hvs : ∀ v ∈ vs, v.IsInput) :
    g.sweepAfresh settings (Entries.ofFields fs') x vs =
      g.sweepAfresh settings (Entries.ofFields fs) x vs := by
  induction vs with
  | nil => rfl
  | cons v r ih =>
      obtain ⟨hv, hr⟩ := List.forall_mem_cons.mp hvs
      have hset : ∀ y, Json.lookup y (Json.put x v fs') = Json.lookup y (Json.put x v fs) := by
        intro y
        rw [Json.lookup_put, Json.lookup_put]
        split
        · rfl
        next hy => exact hagree y hy
      rw [sweepAfresh, sweepAfresh, ih hr, Entries.ofFields_put, Entries.ofFields_put,
        h.simulate_congr (hfs.put hv x) (hfs'.put hv x) hset]

/-- The declared policies of the graph of a payload, in their order. -/
theorem exists_policies {payload : Json} (hg : (RuleSet.compile cfg payload).outcome = .ok g) :
    ∃ ps : List String, g.policyIds false = ps.map .str ∧ ps.Nodup ∧ ∀ a ∈ ps, a ≠ "" := by
  obtain ⟨p, h, hnamed⟩ := exists_named_plan hg
  have htext : ∀ n ∈ g.policyIds false, ∃ a, n = .str a := fun n hn => by
    obtain ⟨d, -, rfl⟩ := h.exists_of_mem_policyIds hn
    exact ⟨d.policy, rfl⟩
  obtain ⟨ps, hps⟩ := Name.exists_strs htext
  have hnodup := h.isLegible.nodup_policyIds false
  rw [hps] at hnodup
  refine ⟨ps, hps, hnodup.of_map, fun a ha => ?_⟩
  obtain ⟨d, hd, heq⟩ := h.exists_of_mem_policyIds (hps ▸ List.mem_map_of_mem ha)
  rw [Json.str.inj heq]
  exact hnamed d hd

/-- A sweep over the graph of a payload, with inputs that lie somewhere on a desk, pairs each value
with exactly the verdict that the evaluation of each declared policy gives with the variable set to
it, and it gives rows exactly when all these evaluations give one.  If some evaluation fails, the
sweep ends with the fault of the first one, the values in their order and the policies in that of
the graph.  What the inputs held for the variable does not matter, and no mapping on the desk is
changed, however the sweep ends. -/
theorem sweepOn_evaluates {payload : Json} (hg : (RuleSet.compile cfg payload).outcome = .ok g)
    (settings : Settings) {d : Desk} {place : Nat} (hplace : d[place]? = some (Entries.ofFields fs))
    (hfs : Json.AreInputs fs) (x : String) {vs : List Json} (hvs : ∀ v ∈ vs, v.IsInput) :
    ∃ ps : List String, g.policyIds false = ps.map .str ∧ ps.Nodup ∧
      (∀ rows, (g.sweepOn settings place (.str x) vs d).1.outcome = .ok rows ↔
        List.Forall₂ (fun v row => row.1 = v ∧ List.Forall₂ (fun a entry => entry.1 = a ∧
          (g.askWith settings fs x v a).outcome = .ok entry.2) ps row.2) vs rows) ∧
      ((∃ rows, (g.sweepOn settings place (.str x) vs d).1.outcome = .ok rows) ↔
        ∀ v ∈ vs, ∀ a ∈ ps, ∃ u, (g.askWith settings fs x v a).outcome = .ok u) ∧
      (∀ f, (g.sweepOn settings place (.str x) vs d).1.outcome = .error f ↔
        ∃ before v after, vs = before ++ v :: after ∧
          (∀ w ∈ before, ∀ a ∈ ps, ∃ u, (g.askWith settings fs x w a).outcome = .ok u) ∧
          ∃ earlier a later, ps = earlier ++ a :: later ∧
            (∀ b ∈ earlier, ∃ u, (g.askWith settings fs x v b).outcome = .ok u) ∧
            (g.askWith settings fs x v a).outcome = .error f) ∧
      (∀ fs' : List (String × Json), Json.AreInputs fs' →
        (∀ y, y ≠ x → Json.lookup y fs' = Json.lookup y fs) →
        g.sweep settings (Entries.ofFields fs') (.str x) vs =
          (g.sweepOn settings place (.str x) vs d).1) ∧
      ∀ i < d.length, (g.sweepOn settings place (.str x) vs d).2[i]? = d[i]? := by
  obtain ⟨ps, hps, hdistinct, hnamed⟩ := exists_policies hg
  obtain ⟨p, h, -⟩ := exists_named_plan hg
  have hmapping : mappingAt d place = Entries.ofFields fs := by
    rw [mappingAt, List.getD_eq_getElem?_getD, hplace, Option.getD_some]
  have hswept : (g.sweepOn settings place (.str x) vs d).1 =
      g.sweepAfresh settings (Entries.ofFields fs) x vs := by rw [sweepOn_fst, hmapping]
  have houtcome : (g.sweepAfresh settings (Entries.ofFields fs) x vs).outcome =
      vs.mapM (g.evaluateEach settings ps fs x) :=
    outcome_sweepAfresh hps hdistinct hnamed hfs hvs
  rw [hswept, houtcome]
  refine ⟨ps, hps, hdistinct, fun rows => ?_, ?_, fun f => ?_, fun fs' hfs' hagree => ?_,
    fun i hi => sweepOn_frame place (.str x) vs hi⟩
  · simp only [Attempt.mapM_eq_ok, evaluateEach_eq_ok]
  · simp only [Attempt.exists_mapM_iff, exists_evaluateEach]
  · simp only [Attempt.mapM_eq_error, exists_evaluateEach, evaluateEach_eq_error]
  · rw [sweep, sweepOn_fst, ← h.sweepAfresh_congr hfs hfs' hagree hvs]
    rfl

end Agreement

section Witness

/-- The payload of the lone policy. -/
def lonePayload : Json :=
  .obj [("rules", .arr [.obj [("rule_id", .str "r"), ("variable", .str "status"),
      ("operator", .str "EQ"), ("value", .str "ok"), ("clause_reference", .str "c"),
      ("confidence", .float Number.one)]]),
    ("documents", .arr [.obj [("policy_id", .str "p"),
      ("clauses", .arr [.obj [("clause_id", .str "c")]]),
      ("requires", .arr [.str "q"])]])]

theorem exists_lone_payload : ∃ g, (RuleSet.compile .standard lonePayload).outcome = .ok g ∧
    lone.validate .standard = .ok lone ∧ (lone.build .standard).outcome = .ok g ∧
    g.IsDrawnFrom .standard lonePlan := by
  obtain ⟨g, hvalid, hbuild, h⟩ := exists_lone
  exact ⟨g, (outcome_compile rfl hvalid).trans hbuild, hvalid, hbuild, h⟩

theorem IsDrawnFrom.policyIds_lone (h : g.IsDrawnFrom .standard lonePlan) :
    g.policyIds false = ["p"].map .str := by
  rw [policyIds, policies, nodesOfKind, h.nodes]
  rfl

theorem exists_askWith_lone (hvalid : lone.validate .standard = .ok lone)
    (hg : (lone.build .standard).outcome = .ok g) (h : g.IsDrawnFrom .standard lonePlan)
    (status : String) : ∃ v o, (g.askWith .standard [("status", .str "unknown")] "status"
        (.str status) "p").outcome = .ok v ∧
      lone.meaning [("status", .str status)] "p" = some o ∧ v.status = statusOf .standard o := by
  have hmapping : Fault.mappingOrEmpty (.obj [("status", .str status)]) =
      .ok (Entries.ofFields [("status", .str status)]) := rfl
  have hquery : Query.check (.str "p") (Entries.ofFields [("status", .str status)]) =
      .ok ⟨"p", [("status", .str status)]⟩ := rfl
  obtain ⟨v, o, hv, ho, hstatus, -⟩ := exists_verdict_of_lone hvalid hg h hquery hmapping
    (by simp [Rule.InRange])
  rw [evaluate_eq_answer _ g hmapping hquery, answer, run_outcome] at hv
  refine ⟨v, o, ?_, ho, hstatus⟩
  rw [outcome_askWith (by simp) (by simp [Json.AreInputs, Json.IsInput.str]) (.str status)]
  exact hv

/-- Inputs for the lone policy beside the mapping of somebody else. -/
def loneDesk : Desk := [[], Entries.ofFields [("status", .str "unknown")]]

/-- A sweep over the status that the lone policy asks for, where the inputs hold another one. -/
theorem sweepOn_evaluates_lone : ∃ g rows,
    (RuleSet.compile .standard lonePayload).outcome = .ok g ∧
    (g.sweepOn .standard 1 (.str "status") [.str "ok", .str "no"] loneDesk).1.outcome = .ok rows ∧
    rows.map (fun row => (row.1, row.2.map fun e => (e.1, e.2.status))) =
      [(.str "ok", [("p", .conditional)]), (.str "no", [("p", .notEligible)])] ∧
    (g.sweepOn .standard 1 (.str "status") [.str "ok", .str "no"] loneDesk).2[1]? =
      some (Entries.ofFields [("status", .str "unknown")]) := by
  obtain ⟨g, hg, hvalid, hbuild, h⟩ := exists_lone_payload
  have hplace : loneDesk[1]? = some (Entries.ofFields [("status", .str "unknown")]) := rfl
  have hfs : Json.AreInputs [("status", .str "unknown")] := by
    simp [Json.AreInputs, Json.IsInput.str]
  have hvs : ∀ v ∈ [Json.str "ok", .str "no"], v.IsInput := by simp [Json.IsInput.str]
  obtain ⟨ps, hps, -, hrows, -, -, -, hframe⟩ :=
    sweepOn_evaluates hg .standard hplace hfs "status" hvs
  obtain rfl : ps = ["p"] :=
    List.map_injective_iff.mpr (fun _ _ => Json.str.inj) (hps.symm.trans h.policyIds_lone)
  obtain ⟨v, o, hv, ho, hstatus⟩ := exists_askWith_lone hvalid hbuild h "ok"
  obtain ⟨w, o', hw, ho', hstatus'⟩ := exists_askWith_lone hvalid hbuild h "no"
  have hopen : (lone.meaning [("status", .str "ok")] "p").map (statusOf .standard) =
      some .conditional := by decide +kernel
  have hshut : (lone.meaning [("status", .str "no")] "p").map (statusOf .standard) =
      some .notEligible := by decide +kernel
  rw [ho, Option.map_some, Option.some.injEq, ← hstatus] at hopen
  rw [ho', Option.map_some, Option.some.injEq, ← hstatus'] at hshut
  refine ⟨g, [(.str "ok", [("p", v)]), (.str "no", [("p", w)])], hg, (hrows _).mpr ?_, ?_,
    hframe 1 (by simp [loneDesk])⟩
  · exact .cons ⟨rfl, .cons ⟨rfl, hv⟩ .nil⟩ (.cons ⟨rfl, .cons ⟨rfl, hw⟩ .nil⟩ .nil)
  · simp only [List.map_cons, List.map_nil, hopen, hshut]

end Witness

end PolicyGraph
end Eligibility
