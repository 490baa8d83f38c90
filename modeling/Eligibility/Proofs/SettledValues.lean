import Eligibility.PolicyGraph.Source
import Eligibility.Proofs.CompiledGraph
import Eligibility.Proofs.Paths
import Eligibility.Proofs.Records
/-!
# Values that were given

**Marks.**  What is no number is like itself where it was given or stored, and not where it was
just computed.  A value that was given, with no key twice in an object, is settled: it is
like itself.

**Texts.**  A JSON text marks what is no number by its word, and of a key that comes twice the last
value counts, so that whatever is read of a text is settled.

**Names.**  So are the names that the nodes of a loaded graph give to policies: the record of a
graph was given, and a rule set names its policies by texts.

**Results.**
* `IsSettled.alike_self`: a settled value is like itself.
* `isSettled_of_read`: what is read of a JSON text is settled.
* `isSettled_policy_of_load`: the names of policies in a loaded graph are settled.
-/

namespace Eligibility
open Attempt

section Numbers

/-- A rational number is rounded to a number. -/
theorem Number.ofRat_ne_nan (q : Rat) (m : Mark) : Number.ofRat q ≠ .nan m := by
  unfold Number.ofRat
  dsimp only
  split_ifs <;> simp [Number.zero]

/-- Digits are read as a number. -/
theorem Number.ofDecimal_ne_nan (negative : Bool) (d : Decimal) (m : Mark) :
    Number.ofDecimal negative d ≠ .nan m := by
  unfold Number.ofDecimal
  dsimp only
  split_ifs
  any_goals exact Number.ofRat_ne_nan _ m
  all_goals simp [Number.zero]

end Numbers

namespace Json

/-- A value in which what is no number was not just computed, and in which no key comes twice. -/
inductive IsSettled : Json → Prop where
  | null : IsSettled null
  | bool (b : Bool) : IsSettled (bool b)
  | int (n : Int) : IsSettled (int n)
  | float {x : Number} (hx : x ≠ .nan .fresh) : IsSettled (float x)
  | str (s : String) : IsSettled (str s)
  | arr {js : List Json} (hjs : ∀ j ∈ js, IsSettled j) : IsSettled (arr js)
  | obj {fs : List (String × Json)} (hkeys : (fs.map (·.1)).Nodup)
      (hfs : ∀ f ∈ fs, IsSettled f.2) : IsSettled (obj fs)

@[simp] theorem isSettled_null : null.IsSettled := .null

@[simp] theorem isSettled_bool (b : Bool) : (bool b).IsSettled := .bool b

@[simp] theorem isSettled_int (n : Int) : (int n).IsSettled := .int n

@[simp] theorem isSettled_str (s : String) : (str s).IsSettled := .str s

@[simp] theorem isSettled_float {x : Number} : (float x).IsSettled ↔ x ≠ .nan .fresh :=
  ⟨fun | .float hx => hx, .float⟩

@[simp] theorem isSettled_arr {js : List Json} : (arr js).IsSettled ↔ ∀ j ∈ js, j.IsSettled :=
  ⟨fun | .arr hjs => hjs, .arr⟩

@[simp] theorem isSettled_obj {fs : List (String × Json)} :
    (obj fs).IsSettled ↔ (fs.map (·.1)).Nodup ∧ ∀ f ∈ fs, f.2.IsSettled :=
  ⟨fun | .obj hkeys hfs => ⟨hkeys, hfs⟩, fun h => .obj h.1 h.2⟩

theorem alikeItems_self {js : List Json} (h : ∀ j ∈ js, j.alike j = true) :
    alikeItems js js = true := by
  induction js with
  | nil => rfl
  | cons j js ih =>
      obtain ⟨hj, hjs⟩ := List.forall_mem_cons.mp h
      rw [alikeItems, hj, ih hjs, Bool.and_self]

theorem alikeFields_self {fs gs : List (String × Json)} (hsub : fs ⊆ gs)
    (hkeys : (gs.map (·.1)).Nodup) (h : ∀ f ∈ fs, f.2.alike f.2 = true) :
    alikeFields fs gs = true := by
  induction fs with
  | nil => simp [alikeFields]
  | cons f fs ih =>
      obtain ⟨hf, hfs⟩ := List.forall_mem_cons.mp h
      obtain ⟨hmem, hsub⟩ := List.cons_subset.mp hsub
      have hlookup : lookup f.1 gs = some f.2 := by
        rw [← Entries.lookup_eq, lookup_of_mem hkeys hmem]
      simp only [alikeFields, hlookup, ih hsub hfs, hf, Bool.and_self]

/-- A value without anything fresh in it is like itself. -/
theorem IsSettled.alike_self {j : Json} (h : j.IsSettled) : j.alike j = true := by
  induction h with
  | null => simp [alike, alikeScalar, sameScalar]
  | bool b => simp [alike, alikeScalar, sameScalar]
  | int n => simp [alike, alikeScalar, sameScalar]
  | @float x hx =>
      cases x with
      | nan m => cases m <;> simp_all [alike, alikeScalar, Number.alike]
      | _ => simp [alike, alikeScalar, Number.alike, Number.same, Number.value?]
  | str s => simp
  | arr _ ih =>
      rw [alike]
      exact alikeItems_self ih
  | obj hkeys _ ih =>
      rw [alike, alikeFields_self (List.Subset.refl _) hkeys ih]
      simp

theorem IsSettled.lookup {fs : List (String × Json)} (h : (Json.obj fs).IsSettled) {k : String}
    {j : Json} (hj : Json.lookup k fs = some j) : j.IsSettled := by
  cases h with
  | obj _ hfs => exact hfs (k, j) (mem_of_lookup (Entries.lookup_eq k fs ▸ hj))

/-- What a value is gone through as is settled where the value is. -/
theorem IsSettled.elements {j : Json} (h : j.IsSettled) {xs : List Json}
    (hxs : j.elements? = some xs) : ∀ x ∈ xs, x.IsSettled := by
  cases h with
  | arr hjs => exact Option.some.inj hxs ▸ hjs
  | obj _ _ =>
      obtain rfl := Option.some.inj hxs
      exact List.forall_mem_map.mpr fun f _ => .str f.1
  | str s =>
      obtain rfl := Option.some.inj hxs
      exact List.forall_mem_map.mpr fun c _ => .str _
  | _ => cases hxs

theorem IsSettled.pair {j : Json} (h : j.IsSettled) {n : Nat} {p : Name × Json}
    (hp : j.pair n = .ok p) : p.2.IsSettled := by
  unfold Json.pair at hp
  split at hp
  · next k v =>
    cases h with
    | arr hjs =>
        unfold pairOf at hp
        split at hp
        · obtain rfl := Except.ok.inj hp
          exact hjs v (by simp)
        · cases hp
  · cases hp
  · obtain rfl := Except.ok.inj hp
    exact .str _
  · cases hp
  · split at hp
    · obtain rfl := Except.ok.inj hp
      exact .str _
    · cases hp
  · cases hp

theorem isSettled_of_pairsFrom {xs : List Json} (h : ∀ x ∈ xs, x.IsSettled) {n : Nat}
    {ps : List (Name × Json)} (hps : pairsFrom n xs = .ok ps) : ∀ p ∈ ps, p.2.IsSettled := by
  induction xs generalizing n ps with
  | nil =>
      obtain rfl := Except.ok.inj hps
      exact List.forall_mem_nil _
  | cons x xs ih =>
      obtain ⟨hx, hxs⟩ := List.forall_mem_cons.mp h
      rw [pairsFrom] at hps
      split at hps
      · cases hps
      · next p hp =>
        obtain ⟨rest, hrest, rfl⟩ := map_eq_ok.mp hps
        exact List.forall_mem_cons.mpr ⟨hx.pair hp, ih hxs hrest⟩

theorem isSettled_of_put {es : Entries Json} (h : ∀ e ∈ es, e.2.IsSettled) {k : Name} {v : Json}
    (hv : v.IsSettled) : ∀ e ∈ es.put k v, e.2.IsSettled := by
  induction es with
  | nil => exact List.forall_mem_singleton.mpr hv
  | cons e es ih =>
      obtain ⟨he, hes⟩ := List.forall_mem_cons.mp h
      rw [Entries.put]
      split
      · exact List.forall_mem_cons.mpr ⟨hv, hes⟩
      · exact List.forall_mem_cons.mpr ⟨he, ih hes⟩

/-- The values of a mapping are settled where the mapping is. -/
theorem IsSettled.mapping {j : Json} (h : j.IsSettled) {es : Entries Json}
    (hes : j.mapping = .ok es) : ∀ e ∈ es, e.2.IsSettled := by
  unfold Json.mapping at hes
  split at hes
  · next fs =>
    obtain rfl := Except.ok.inj hes
    cases h with
    | obj _ hfs => exact List.forall_mem_map.mpr hfs
  · split at hes
    · next xs hxs =>
      obtain ⟨ps, hps, rfl⟩ := map_eq_ok.mp hes
      have hall := isSettled_of_pairsFrom (h.elements hxs) hps
      exact List.foldlRecOn ps _ (motive := fun es : Entries Json => ∀ e ∈ es, e.2.IsSettled)
        (List.forall_mem_nil _) fun es hes p hp => isSettled_of_put hes (hall p hp)
    · cases hes

section Texts

variable {cs : List Char}

theorem isSettled_readNumber {p : Json × List Char} (h : readNumber cs = .ok p) :
    p.1.IsSettled := by
  unfold readNumber at h
  dsimp only at h
  split at h
  · cases h
  · split at h
    · obtain rfl := Except.ok.inj h
      exact .float (Number.ofDecimal_ne_nan _ _ _)
    · split at h
      · cases h
      · obtain rfl := Except.ok.inj h
        exact .int _

theorem isSettled_readWord {ws : List (String × Json)} (hws : ∀ w ∈ ws, w.2.IsSettled)
    {p : Json × List Char} (h : readWord cs ws = some p) : p.1.IsSettled := by
  induction ws with
  | nil => cases h
  | cons w ws ih =>
      obtain ⟨hw, hws⟩ := List.forall_mem_cons.mp hws
      rw [readWord] at h
      split at h
      · exact Option.some.inj h ▸ hw
      · exact ih hws h

theorem isSettled_readScalar {p : Json × List Char} (h : readScalar cs = .ok p) :
    p.1.IsSettled := by
  unfold readScalar at h
  split at h
  · split at h
    · obtain rfl := Except.ok.inj h
      exact .str _
    · cases h
  · split at h
    · next hword =>
      obtain rfl := Except.ok.inj h
      exact isSettled_readWord (by simp [words]) hword
    · exact isSettled_readNumber h

theorem mem_keys_put {k k' : String} {v : Json} {fs : List (String × Json)}
    (h : k' ∈ (put k v fs).map (·.1)) : k' = k ∨ k' ∈ fs.map (·.1) := by
  induction fs with
  | nil => simpa [put] using h
  | cons f fs ih =>
      rw [put] at h
      split at h
      · simp_all
      · rcases List.mem_cons.mp h with rfl | h
        · exact .inr List.mem_cons_self
        · exact (ih h).imp_right (List.mem_cons_of_mem _)

theorem isSettled_put {fs : List (String × Json)} (h : (obj fs).IsSettled) (k : String) {v : Json}
    (hv : v.IsSettled) : (obj (put k v fs)).IsSettled := by
  induction fs with
  | nil => simpa [put] using hv
  | cons f fs ih =>
      simp only [isSettled_obj, List.map_cons, List.nodup_cons, List.forall_mem_cons] at h ih ⊢
      obtain ⟨⟨hf, hkeys⟩, hsettled, hfs⟩ := h
      obtain ⟨hput, hall⟩ := ih ⟨hkeys, hfs⟩
      rw [put]
      split
      · next heq =>
        exact ⟨List.nodup_cons.mpr ⟨heq ▸ hf, hkeys⟩, List.forall_mem_cons.mpr ⟨hv, hfs⟩⟩
      · next hne =>
        refine ⟨List.nodup_cons.mpr ⟨fun hmem => ?_, hput⟩, List.forall_mem_cons.mpr ⟨hsettled, hall⟩⟩
        exact (mem_keys_put hmem).elim hne hf

theorem isSettled_ofPairs {ps : List (String × Json)} (h : ∀ p ∈ ps, p.2.IsSettled) :
    (obj (ofPairs ps)).IsSettled :=
  List.foldlRecOn ps _ (motive := fun fs => (obj fs).IsSettled) (by simp)
    fun _ hfs p hp => isSettled_put hfs p.1 (h p hp)

/-- What is read of a text, within a depth, is settled. -/
theorem isSettled_readTo (fuel : Nat) :
    (∀ cs p, readValue fuel cs = .ok p → p.1.IsSettled) ∧
      (∀ cs p, readItems fuel cs = .ok p → ∀ j ∈ p.1, j.IsSettled) ∧
      ∀ cs p, readFields fuel cs = .ok p → ∀ f ∈ p.1, f.2.IsSettled := by
  induction fuel with
  | zero => exact ⟨nofun, nofun, nofun⟩
  | succ fuel ih =>
      obtain ⟨hvalue, hitems, hfields⟩ := ih
      refine ⟨fun cs p h => ?_, fun cs p h => ?_, fun cs p h => ?_⟩
      · unfold readValue at h
        split at h
        · split at h
          · exact Except.ok.inj h ▸ .arr (List.forall_mem_nil _)
          · obtain ⟨x, hx, rfl⟩ := Attempt.map_eq_ok.mp h
            exact .arr (hitems _ x hx)
        · split at h
          · exact Except.ok.inj h ▸ .obj List.nodup_nil (List.forall_mem_nil _)
          · obtain ⟨x, hx, rfl⟩ := Attempt.map_eq_ok.mp h
            exact isSettled_ofPairs (hfields _ x hx)
        · exact isSettled_readScalar h
      · rw [readItems] at h
        split at h
        · cases h
        · next v r hv =>
          have hv := hvalue _ _ hv
          split at h
          · exact Except.ok.inj h ▸ List.forall_mem_singleton.mpr hv
          · obtain ⟨x, hx, rfl⟩ := Attempt.map_eq_ok.mp h
            exact List.forall_mem_cons.mpr ⟨hv, hitems _ x hx⟩
          · cases h
      · rw [readFields] at h
        split at h
        · cases h
        · split at h
          · cases h
          · next v r hv =>
            have hv := hvalue _ _ hv
            split at h
            · exact Except.ok.inj h ▸ List.forall_mem_singleton.mpr hv
            · obtain ⟨x, hx, rfl⟩ := Attempt.map_eq_ok.mp h
              exact List.forall_mem_cons.mpr ⟨hv, hfields _ x hx⟩
            · cases h

/-- Whatever is read of a text is settled. -/
theorem isSettled_of_read {s : String} {j : Json} (h : read s = .ok j) : j.IsSettled := by
  unfold read readAll at h
  dsimp only at h
  split at h
  · cases h
  · split at h
    · cases h
    · next v r hv =>
      split at h
      · exact Except.ok.inj h ▸ (isSettled_readTo _).1 _ _ hv
      · cases h

end Texts

end Json

section Records

open Json

theorem Payload.embed_eq_ok {α : Type} {x : Except Fault α} {a : α} :
    Payload.embed x = .ok a ↔ x = .ok a := by
  unfold Payload.embed
  split
  · simp [Payload.fail]
  · simp [Payload.fail]
  · exact Iff.rfl

theorem Fault.mapping_eq_ok {j : Json} {es : Entries Json} :
    Fault.mapping j = .ok es ↔ j.mapping = .ok es := by
  unfold Fault.mapping
  split <;> simp_all

/-- The value of an entry is found among the entries. -/
theorem Entries.exists_of_get? {α : Type} {k : String} {v : α} {es : Entries α}
    (h : es.get? k = some v) : ∃ e ∈ es, e.1.same (.str k) = true ∧ e.2 = v := by
  induction es with
  | nil => cases h
  | cons e es ih =>
      rw [Entries.get?] at h
      split at h
      · next hsame => exact ⟨e, List.mem_cons_self, hsame, Option.some.inj h⟩
      · obtain ⟨e', he', hrest⟩ := ih h
        exact ⟨e', List.mem_cons_of_mem e he', hrest⟩

theorem Name.eq_of_same_str {n : Name} {s : String} (h : n.same (.str s) = true) : n = .str s := by
  cases n <;> simp_all [Json.same, Json.sameScalar, Json.alike, Json.alikeScalar]

/-- A property of a node that is no operand is as settled as what it was read from. -/
theorem Node.isSettled_get {es : Entries Json} {ps : Entries Property}
    (hps : readProperties es = .ok ps) (hes : ∀ e ∈ es, e.2.IsSettled) {n : Node}
    (hn : n.properties = ps) {k : String} (hk : k ≠ "value") : (n.get k).IsSettled := by
  have hjson : ∀ x ∈ ps, x.1.same (.str k) = true → ∃ e ∈ es, x.2 = .json e.2 := by
    unfold readProperties at hps
    intro x hx hsame
    split at hps
    · obtain rfl := Except.ok.inj hps
      obtain ⟨e, he, rfl⟩ := List.mem_map.mp hx
      exact ⟨e, he, rfl⟩
    · obtain rfl := Except.ok.inj hps
      obtain ⟨e, he, rfl⟩ := List.mem_map.mp hx
      exact ⟨e, he, rfl⟩
    · split at hps
      · cases hps
      · obtain rfl := Except.ok.inj hps
        obtain ⟨e, he, rfl⟩ := List.mem_map.mp hx
        have hvalue : ¬ e.1.same (.str "value") = true := by
          intro hvalue
          have := (Name.eq_of_same_str hsame).symm.trans (Name.eq_of_same_str hvalue)
          exact hk (Json.str.inj this)
        exact ⟨e, he, if_neg hvalue⟩
  unfold Node.get Node.property?
  rw [hn]
  split
  · next p hp =>
    obtain ⟨x, hx, hsame, rfl⟩ := Entries.exists_of_get? hp
    obtain ⟨e, he, hxe⟩ := hjson x hx hsame
    rw [hxe]
    exact hes e he
  · exact .null

/-- The names of policies in a node that is read are settled where the record is. -/
theorem Node.isSettled_policy_of_read {j : Json} (hj : j.IsSettled) {n : Node}
    (hn : read j = .ok n) : n.policy.IsSettled := by
  cases j with
  | obj fs =>
      obtain ⟨es, hes, hn⟩ := bind_eq_ok.mp hn
      obtain ⟨ps, hps, hn⟩ := bind_eq_ok.mp hn
      obtain ⟨id, -, hn⟩ := bind_eq_ok.mp hn
      obtain ⟨kind, -, hn⟩ := bind_eq_ok.mp hn
      obtain ⟨confidence, -, hn⟩ := bind_eq_ok.mp hn
      obtain rfl := Except.ok.inj hn
      have hproperties : ((Json.lookup "properties" fs).getD (.obj [])).IsSettled := by
        cases hlookup : Json.lookup "properties" fs with
        | none => exact .obj List.nodup_nil (List.forall_mem_nil _)
        | some j => exact hj.lookup hlookup
      exact Node.isSettled_get hps
        (hproperties.mapping (Fault.mapping_eq_ok.mp (Payload.embed_eq_ok.mp hes))) rfl (by decide)
  | _ => cases hn

end Records

namespace PolicyGraph

section Names

variable {cfg : Settings} {g : PolicyGraph} {p : Plan}

/-- The names of policies in the record of a graph are settled where the record is. -/
theorem isSettled_policy_of_read {j : Json} (hj : j.IsSettled) (hg : read j = .ok g) :
    ∀ n ∈ g.nodes, n.policy.IsSettled := by
  cases j with
  | obj fs =>
      obtain ⟨nodes, hnodes, hg⟩ := bind_eq_ok.mp hg
      obtain ⟨edges, -, hg⟩ := bind_eq_ok.mp hg
      obtain ⟨metadata, -, hg⟩ := bind_eq_ok.mp hg
      obtain ⟨items, hitems, hnodes⟩ := bind_eq_ok.mp hnodes
      rw [(make_eq_ok hg).1]
      intro n hn
      obtain ⟨x, hx, hxn⟩ := exists_of_mem_mapM hnodes hn
      have hlist : ((Json.lookup "nodes" fs).getD (.arr [])).IsSettled := by
        cases hlookup : Json.lookup "nodes" fs with
        | none => exact .arr (List.forall_mem_nil _)
        | some j => exact hj.lookup hlookup
      have hall : ∀ x ∈ items, x.IsSettled := by
        unfold Payload.items at hitems
        split at hitems
        · next xs hxs => exact Except.ok.inj hitems ▸ hlist.elements hxs
        · cases hitems
      exact Node.isSettled_policy_of_read (hall x hx) hxn
  | _ => cases hg

/-- The nodes of a compiled graph are called after texts, or after nothing. -/
theorem IsDrawnFrom.isSettled_policy (h : g.IsDrawnFrom cfg p) :
    ∀ n ∈ g.nodes, n.policy.IsSettled := by
  intro n hn
  rcases Plan.mem_layout.mp (h.mem_nodes hn) with
    ⟨d, -, rfl⟩ | ⟨d, -, c, -, rfl⟩ | ⟨d, -, t, -, rfl⟩ | ⟨q, -, rfl | ho⟩
  · exact Plan.policyNode_policy cfg d _ ▸ .str _
  · exact .str d.policy
  · exact .str t
  · exact Plan.conditionNode_policy cfg q.1 q.2.head ▸ .str _
  · rcases Plan.mem_operandNodes ho with ⟨x, -, rfl⟩ | ⟨s, rfl⟩
    · exact .null
    · exact .null

/-- A loaded graph was compiled, or read. -/
theorem load_cases {payload : Json} (h : (load cfg payload).outcome = .ok g) :
    (isRecord payload = .ok false ∧ (RuleSet.compile cfg payload).outcome = .ok g) ∨
      (isRecord payload = .ok true ∧ read payload = .ok g) := by
  unfold load at h
  split at h
  · cases h
  · next hrecord => exact .inr ⟨hrecord, h⟩
  · next hrecord => exact .inl ⟨hrecord, h⟩

/-- The names of policies in a loaded graph are settled where the payload is. -/
theorem isSettled_policy_of_load {payload : Json} (hpayload : payload.IsSettled)
    (h : (load cfg payload).outcome = .ok g) : ∀ n ∈ g.nodes, n.policy.IsSettled := by
  rcases load_cases h with ⟨-, hcompile⟩ | ⟨-, hread⟩
  · obtain ⟨p, hp⟩ := (isCompiled_of_compile hcompile).exists_isDrawnFrom
    exact hp.isSettled_policy
  · exact isSettled_policy_of_read hpayload hread

end Names

end PolicyGraph
end Eligibility
