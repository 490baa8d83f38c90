import Eligibility.Proofs.ComposedTrees
import Eligibility.Proofs.Contradictions
import Eligibility.Proofs.Passes
/-!
# What identifiers of conflicts tell

**Texts.**  The text behind an identifier joins the name of a kind and the nodes with bars.  It
tells the pieces between the bars, and nothing else: a rule may have a bar in its name, and then
different nodes can give the same pieces.

**Merging.**  Of the candidates that are not suppressed, those with one identifier become one
conflict.  Unless digests collide, these are the candidates of one kind whose nodes give the same
pieces.  Where no name hides what begins a key behind a bar, they are about the same nodes.

**Results.**
* `Conflict.key_eq_iff`: when two kinds with their nodes have one text.
* `mem_iff_of_pieces_eq`: pieces tell nodes that hide no key.
* `merged_iff`: which candidates are reported as one conflict.
* `not_forall_merged`: candidates about different conditions that are reported as one.
-/

namespace Eligibility

section Pieces

variable {xs ys : List String}

/-- The pieces of a text between its bars. -/
def piecesOf (s : String) : List (List Char) := s.toList.splitOn '|'

/-- Texts joined with bars have the pieces of all of them. -/
theorem piecesOf_intercalate (hxs : xs ≠ []) :
    piecesOf (String.intercalate "|" xs) = xs.flatMap piecesOf := by
  rw [piecesOf, String.toList_intercalate]
  induction xs with
  | nil => exact absurd rfl hxs
  | cons x r ih =>
      cases r with
      | nil => simp [piecesOf]
      | cons y r =>
          have hjoin : ("|".toList).intercalate ((x :: y :: r).map String.toList) =
              x.toList ++ '|' :: ("|".toList).intercalate ((y :: r).map String.toList) := by
            simp [List.intercalate_cons_cons]
          rw [hjoin, List.splitOn_append_cons_self, ih (List.cons_ne_nil _ _)]
          rfl

/-- A text is given by its pieces. -/
theorem piecesOf_inj {s t : String} : piecesOf s = piecesOf t ↔ s = t := by
  refine ⟨fun h => ?_, fun h => h ▸ rfl⟩
  have hjoined := congrArg ['|'].intercalate h
  rwa [piecesOf, piecesOf, List.intercalate_splitOn, List.intercalate_splitOn,
    String.toList_inj] at hjoined

end Pieces

namespace Conflict

/-- The pieces of nodes, each named once and in rising order. -/
def pieces (nodes : List String) : List (List Char) :=
  (TextSet.ofList nodes).members.flatMap piecesOf

theorem bar_not_mem_name (k : ConflictKind) : '|' ∉ k.name.toList := by
  cases k <;> decide

/-- The text that identifies a conflict tells its kind and the pieces of its nodes. -/
theorem key_eq_iff {k l : ConflictKind} {xs ys : List String} :
    key k xs = key l ys ↔ k = l ∧ pieces xs = pieces ys := by
  have hkey : ∀ k xs, piecesOf (key k xs) = k.name.toList :: pieces xs := by
    intro k xs
    rw [key, piecesOf_intercalate (List.cons_ne_nil _ _), List.flatMap_cons, piecesOf,
      List.splitOn_eq_singleton (bar_not_mem_name k)]
    rfl
  rw [← piecesOf_inj, hkey, hkey, List.cons.injEq]
  refine and_congr_left fun _ => ⟨fun h => ?_, fun h => h ▸ rfl⟩
  revert h
  cases k <;> cases l <;> decide

/-- Nodes that are the same give the same pieces. -/
theorem pieces_congr {xs ys : List String} (h : ∀ s, s ∈ xs ↔ s ∈ ys) : pieces xs = pieces ys := by
  have hset : TextSet.ofList xs = TextSet.ofList ys :=
    TextSet.ext_members fun s => by rw [TextSet.mem_ofList, TextSet.mem_ofList, h]
  rw [pieces, pieces, hset]

end Conflict

section Keys

/-- Whether a text begins like the key of a node. -/
def BeginsKey (cs : List Char) : Prop := ∃ k, (Node.keyKind k).toList <+: cs

/-- Whether a bar in a text comes before what begins a key. -/
def HidesKey (s : String) : Prop := ∃ k, '|' :: (Node.keyKind k).toList <:+: s.toList

theorem infix_intercalate {c : Char} {q : List Char} {ps : List (List Char)} :
    ∀ p ∈ ps, c :: p <:+: [c].intercalate (q :: ps) := by
  induction ps generalizing q with
  | nil => simp
  | cons r ps ih =>
      intro p hp
      have hjoin : [c].intercalate (q :: r :: ps) = q ++ c :: [c].intercalate (r :: ps) := by
        simp [List.intercalate_cons_cons]
      rw [hjoin]
      rcases List.mem_cons.mp hp with rfl | hp
      · have hprefix : p <+: [c].intercalate (p :: ps) := by
          cases ps with
          | nil => simp
          | cons y ps => simp [List.intercalate_cons_cons]
        exact List.IsInfix.trans (List.prefix_cons_inj c |>.mpr hprefix).isInfix
          (List.suffix_append q _).isInfix
      · exact (ih p hp).trans ((List.suffix_cons c _).trans (List.suffix_append q _)).isInfix

/-- Of the pieces of a key that hides no other one, the first begins a key and no other one does. -/
theorem exists_piecesOf_eq {s : String} (hkey : BeginsKey s.toList) (hhides : ¬ HidesKey s) :
    ∃ p ps, piecesOf s = p :: ps ∧ BeginsKey p ∧ ∀ q ∈ ps, ¬ BeginsKey q := by
  obtain ⟨p, ps, hps⟩ := List.exists_cons_of_ne_nil (List.splitOn_ne_nil '|' s.toList)
  have hjoined : s.toList = ['|'].intercalate (p :: ps) := by
    rw [← hps, List.intercalate_splitOn]
  refine ⟨p, ps, hps, ?_, fun q hq hbegins => ?_⟩
  · obtain ⟨k, rest, hrest⟩ := hkey
    have hbar : '|' ∉ (Node.keyKind k).toList := by cases k <;> decide
    cases ps with
    | nil =>
        rw [List.intercalate_singleton] at hjoined
        exact ⟨k, rest, hrest.trans hjoined⟩
    | cons r ps =>
        rw [List.intercalate_cons_cons, ← hrest, List.append_assoc] at hjoined
        rcases List.append_eq_append_iff.mp hjoined with ⟨zs, hp, -⟩ | ⟨zs, hk, hzs⟩
        · exact ⟨k, zs, hp.symm⟩
        · cases zs with
          | nil => exact ⟨k, [], by rw [hk, List.append_nil, List.append_nil]⟩
          | cons z zs =>
              obtain rfl : '|' = z := (List.cons.inj hzs).1
              exact absurd (by simp [hk]) hbar
  · obtain ⟨k, hk⟩ := hbegins
    have hq := infix_intercalate (c := '|') (q := p) q hq
    rw [← hjoined] at hq
    exact hhides ⟨k, ((List.prefix_cons_inj '|').mpr hk).isInfix.trans hq⟩

/-- The pieces that follow the first one of a key end where the next key begins. -/
theorem pieces_append_inj {ps qs : List (List Char)} {xs ys : List (List Char)}
    (hps : ∀ p ∈ ps, ¬ BeginsKey p) (hqs : ∀ q ∈ qs, ¬ BeginsKey q)
    (hxs : ∀ x ∈ xs.head?, BeginsKey x) (hys : ∀ y ∈ ys.head?, BeginsKey y)
    (h : ps ++ xs = qs ++ ys) : ps = qs ∧ xs = ys := by
  induction ps generalizing qs with
  | nil =>
      cases qs with
      | nil => exact ⟨rfl, h⟩
      | cons q qs =>
          rw [List.nil_append, List.cons_append] at h
          exact absurd (hxs q (by rw [h]; rfl)) (hqs q List.mem_cons_self)
  | cons p ps ih =>
      obtain ⟨hp, hps⟩ := List.forall_mem_cons.mp hps
      cases qs with
      | nil =>
          rw [List.nil_append, List.cons_append] at h
          exact absurd (hys p (by rw [← h]; rfl)) hp
      | cons q qs =>
          obtain ⟨hpq, h⟩ := List.cons.inj h
          obtain ⟨hrest, hxy⟩ := ih hps (List.forall_mem_cons.mp hqs).2 h
          exact ⟨by rw [hpq, hrest], hxy⟩

/-- Keys that hide no other one are told by their pieces. -/
theorem eq_of_flatMap_piecesOf {xs ys : List String}
    (hxs : ∀ x ∈ xs, BeginsKey x.toList ∧ ¬ HidesKey x)
    (hys : ∀ y ∈ ys, BeginsKey y.toList ∧ ¬ HidesKey y)
    (h : xs.flatMap piecesOf = ys.flatMap piecesOf) : xs = ys := by
  have hhead : ∀ zs : List String, (∀ z ∈ zs, BeginsKey z.toList ∧ ¬ HidesKey z) →
      ∀ p ∈ (zs.flatMap piecesOf).head?, BeginsKey p := by
    intro zs hzs p hp
    cases zs with
    | nil => simp at hp
    | cons z zs =>
        obtain ⟨q, qs, hq, hbegins, -⟩ := exists_piecesOf_eq (hzs z (by simp)).1 (hzs z (by simp)).2
        rw [List.flatMap_cons, hq] at hp
        obtain rfl : q = p := by simpa using hp
        exact hbegins
  induction xs generalizing ys with
  | nil =>
      cases ys with
      | nil => rfl
      | cons y ys =>
          rw [List.flatMap_nil, List.flatMap_cons] at h
          exact absurd (List.append_eq_nil_iff.mp h.symm).1 (List.splitOn_ne_nil _ _)
  | cons x xs ih =>
      obtain ⟨hx, hxs⟩ := List.forall_mem_cons.mp hxs
      cases ys with
      | nil =>
          rw [List.flatMap_nil, List.flatMap_cons] at h
          exact absurd (List.append_eq_nil_iff.mp h).1 (List.splitOn_ne_nil _ _)
      | cons y ys =>
          obtain ⟨hy, hys⟩ := List.forall_mem_cons.mp hys
          obtain ⟨p, ps, hp, -, hps⟩ := exists_piecesOf_eq hx.1 hx.2
          obtain ⟨q, qs, hq, -, hqs⟩ := exists_piecesOf_eq hy.1 hy.2
          rw [List.flatMap_cons, List.flatMap_cons, hp, hq, List.cons_append, List.cons_append] at h
          obtain ⟨hpq, h⟩ := List.cons.inj h
          obtain ⟨hrest, h⟩ := pieces_append_inj hps hqs (hhead xs hxs) (hhead ys hys) h
          rw [piecesOf_inj.mp (hp.trans (by rw [hpq, hrest, hq])), ih hxs hys h]

/-- Keys that hide no other one are the same where they give the same pieces. -/
theorem mem_iff_of_pieces_eq {xs ys : List String}
    (hxs : ∀ x ∈ xs, BeginsKey x.toList ∧ ¬ HidesKey x)
    (hys : ∀ y ∈ ys, BeginsKey y.toList ∧ ¬ HidesKey y)
    (h : Conflict.pieces xs = Conflict.pieces ys) (s : String) : s ∈ xs ↔ s ∈ ys := by
  have hmembers := eq_of_flatMap_piecesOf
    (fun x hx => hxs x (TextSet.mem_ofList.mp hx)) (fun y hy => hys y (TextSet.mem_ofList.mp hy)) h
  rw [← TextSet.mem_ofList, TextSet.mem_def, hmembers, ← TextSet.mem_def, TextSet.mem_ofList]

end Keys

/-- Whether one conflict of a report stands for two. -/
def ConflictReport.Merges (r : ConflictReport) (x y : Conflict) : Prop :=
  ∃ z ∈ r.conflicts, z.id = x.id ∧ z.id = y.id

namespace PolicyGraph

variable {cfg : Settings} {g : PolicyGraph} {gs : List PolicyGraph} {table : List Impossibility}

section Keyed

/-- Whether all nodes of a graph have keys. -/
def IsKeyed (g : PolicyGraph) : Prop :=
  ∀ n ∈ g.nodes, ∃ s, n.id = .str s ∧ BeginsKey s.toList

theorem IsCompiled.isKeyed (h : g.IsCompiled cfg) : g.IsKeyed := by
  obtain ⟨p, hp⟩ := h.exists_isDrawnFrom
  have hkey : ∀ k rest, BeginsKey (Node.keyKind k ++ rest).toList := fun k rest =>
    ⟨k, by rw [String.toList_append]; exact List.prefix_append _ _⟩
  intro n hn
  rcases Plan.mem_layout.mp (hp.mem_nodes hn) with
    ⟨d, -, rfl⟩ | ⟨d, -, c, -, rfl⟩ | ⟨d, -, t, -, rfl⟩ | ⟨q, -, rfl | ho⟩
  · exact ⟨_, rfl, hkey .policy d.policy⟩
  · exact ⟨_, rfl, hkey .clause c.id⟩
  · exact ⟨_, rfl, hkey .policy t⟩
  · exact ⟨_, rfl, hkey .condition q.2.id⟩
  · rcases Plan.mem_operandNodes ho with ⟨x, -, rfl⟩ | ⟨s, rfl⟩
    · exact ⟨_, rfl, by rw [Node.thresholdKey_eq]; exact hkey .threshold _⟩
    · exact ⟨_, rfl, hkey .entity s⟩

/-- What is composed of compiled graphs has keys. -/
theorem isKeyed_of_compose (hgs : ∀ x ∈ gs, ∃ cfg, x.IsCompiled cfg) (hg : compose gs = .ok g) :
    g.IsKeyed := by
  intro n hn
  obtain ⟨x, hx, hnx⟩ : ∃ x ∈ gs, n ∈ x.nodes := by
    rcases isComposedOf_of_compose hgs hg with rfl | h
    · exact ⟨g, List.mem_singleton_self g, hn⟩
    · rcases h.absorbs.origin n hn with hmem | hmem
      · simp at hmem
      · exact List.mem_flatMap.mp hmem
  obtain ⟨cfg, hcfg⟩ := hgs x hx
  exact hcfg.isKeyed n hnx

end Keyed

section Merging

/-- Whether the digests of different texts that identify candidates of some passes differ. -/
def HasDistinctDigests (g : PolicyGraph) (table : List Impossibility) (ks : List ConflictKind) :
    Prop :=
  ∀ k ∈ ks, ∀ l ∈ ks, ∀ c d xs ys, g.Gives table k c → g.Gives table l d →
    c.nodes = xs.map .str → d.nodes = ys.map .str →
      Conflict.identify k xs = Conflict.identify l ys → Conflict.key k xs = Conflict.key l ys

variable {k l : ConflictKind} {c d : Candidate} {x y : Conflict} {r : ConflictReport}

/-- A conflict is identified by the kind of its pass and by nodes of the graph. -/
theorem exists_identify (hc : g.Gives table k c) (hx : g.Receives c x) :
    ∃ xs : List String, c.nodes = xs.map .str ∧ x.id = Conflict.identify k xs := by
  obtain ⟨cs, hcs, hc⟩ := hc
  have hid := (Candidate.of_conflict hx.2).2
  unfold Candidate.conflictId at hid
  split at hid
  · next xs hxs =>
    refine ⟨xs, Name.eq_strs_of_texts? hxs, ?_⟩
    rw [← Except.ok.inj hid, (isOver_of_candidates hcs c hc).kind]
  · cases hid

/-- The report of detection that is not stopped has exactly one conflict with the identifier of a
candidate that is not suppressed. -/
theorem exists_unique_reported {passes : Option (List ConflictKind)}
    (hr : (g.detect table passes none).outcome = .ok r) (hk : k ∈ selectedPasses passes)
    (hc : g.Gives table k c) (hx : g.Receives c x) : ∃! z, z ∈ r.conflicts ∧ z.id = x.id := by
  rw [outcome_detect_none] at hr
  obtain ⟨rs, hrs, rfl⟩ := Attempt.map_eq_ok.mp hr
  obtain ⟨s, hs⟩ := Attempt.exists_ok_of_mapM hrs hk
  obtain ⟨t, ht, hts⟩ := Attempt.exists_right (Attempt.mapM_eq_ok.mp hrs) hk
  obtain rfl := Except.ok.inj (hs.symm.trans hts)
  have hmem : x ∈ rs.flatMap PassResult.conflicts :=
    List.mem_flatMap.mpr ⟨s, ht, ((isOf_of_runPass hs).conflicts x).mpr ⟨c, hc, hx⟩⟩
  obtain ⟨z, hz, hid⟩ := exists_mem_firstConflicts hmem List.not_mem_nil
  have hperm := List.mergeSort_perm (firstConflicts [] (rs.flatMap PassResult.conflicts))
    reportedBefore
  refine ⟨z, ⟨hperm.mem_iff.mpr hz, hid⟩, fun w ⟨hw, hwid⟩ => ?_⟩
  exact List.inj_on_of_nodup_map nodup_firstConflicts (hperm.mem_iff.mp hw) hz
    (hwid.trans hid.symm)

/-- Candidates whose kinds and nodes have one text are reported as one conflict. -/
theorem merges_of_key_eq {passes : Option (List ConflictKind)}
    (hr : (g.detect table passes none).outcome = .ok r) (hk : k ∈ selectedPasses passes)
    (hc : g.Gives table k c) (hd : g.Gives table l d) (hx : g.Receives c x) (hy : g.Receives d y)
    {xs ys : List String} (hxs : c.nodes = xs.map .str) (hys : d.nodes = ys.map .str)
    (hkey : Conflict.key k xs = Conflict.key l ys) : r.Merges x y := by
  obtain ⟨zs, hzs, hxid⟩ := exists_identify hc hx
  obtain rfl := Json.strs_inj (hxs.symm.trans hzs)
  obtain ⟨zs, hzs, hyid⟩ := exists_identify hd hy
  obtain rfl := Json.strs_inj (hys.symm.trans hzs)
  obtain ⟨z, ⟨hz, hzx⟩, -⟩ := exists_unique_reported hr hk hc hx
  exact ⟨z, hz, hzx, by rw [hzx, hxid, hyid, Conflict.identify, hkey, Conflict.identify]⟩

/-- Candidates that are not suppressed are reported as one conflict exactly if they are of one kind
and their nodes give the same pieces; where their nodes hide no key, exactly if they are of one
kind and about the same nodes. -/
theorem merged_iff (hgs : ∀ x ∈ gs, ∃ cfg, x.IsCompiled cfg) (hg : compose gs = .ok g)
    {passes : Option (List ConflictKind)} (hr : (g.detect table passes none).outcome = .ok r)
    (hdigests : g.HasDistinctDigests table (selectedPasses passes))
    (hk : k ∈ selectedPasses passes) (hl : l ∈ selectedPasses passes)
    (hc : g.Gives table k c) (hd : g.Gives table l d) (hx : g.Receives c x) (hy : g.Receives d y) :
    (∃! z, z ∈ r.conflicts ∧ z.id = x.id) ∧ (∃! z, z ∈ r.conflicts ∧ z.id = y.id) ∧
      ∃ xs ys : List String, c.nodes = xs.map .str ∧ d.nodes = ys.map .str ∧
        (r.Merges x y ↔ k = l ∧ Conflict.pieces xs = Conflict.pieces ys) ∧
        ((∀ s ∈ xs ++ ys, ¬ HidesKey s) →
          (r.Merges x y ↔ k = l ∧ ∀ n, n ∈ c.nodes ↔ n ∈ d.nodes)) := by
  refine ⟨exists_unique_reported hr hk hc hx, exists_unique_reported hr hl hd hy, ?_⟩
  obtain ⟨xs, hxs, hxid⟩ := exists_identify hc hx
  obtain ⟨ys, hys, hyid⟩ := exists_identify hd hy
  have hmerges : r.Merges x y ↔ k = l ∧ Conflict.pieces xs = Conflict.pieces ys := by
    rw [← Conflict.key_eq_iff]
    constructor
    · rintro ⟨z, -, hzx, hzy⟩
      exact hdigests k hk l hl c d xs ys hc hd hxs hys (by rw [← hxid, ← hyid, ← hzx, hzy])
    · exact merges_of_key_eq hr hk hc hd hx hy hxs hys
  refine ⟨xs, ys, hxs, hys, hmerges, fun hhides => hmerges.trans (and_congr_right fun _ => ?_)⟩
  have hkeyed := isKeyed_of_compose hgs hg
  have hbegins : ∀ {k : ConflictKind} {c : Candidate} {zs : List String}, g.Gives table k c →
      c.nodes = zs.map .str → ∀ s ∈ zs, BeginsKey s.toList := by
    intro k c zs hc hzs s hs
    obtain ⟨cs, hcs, hc⟩ := hc
    obtain ⟨n, hn, hid⟩ :=
      (isOver_of_candidates hcs c hc).nodes (.str s) (hzs ▸ List.mem_map_of_mem hs)
    obtain ⟨t, ht, hkey⟩ := hkeyed n hn
    rwa [← Json.str.inj (ht.symm.trans hid)]
  obtain ⟨hxhides, hyhides⟩ := List.forall_mem_append.mp hhides
  rw [hxs, hys]
  constructor
  · intro hpieces
    have hsame := mem_iff_of_pieces_eq (fun s hs => ⟨hbegins hc hxs s hs, hxhides s hs⟩)
      (fun s hs => ⟨hbegins hd hys s hs, hyhides s hs⟩) hpieces
    simp [hsame]
  · refine fun hsame => Conflict.pieces_congr fun s => ?_
    simpa using hsame (.str s)

end Merging

section Bars

/-- The head of a comparison of a variable with a text. -/
def textHead (id subject value : String) : Head :=
  { id, subject, operator := .eq, value := some (.text value), clause := "c",
    confidence := some Number.one }

/-- The payload of a comparison of a variable with a text. -/
def textPayload (id subject value : String) : Json :=
  .obj [("rule_id", .str id), ("variable", .str subject), ("operator", .str "EQ"),
    ("value", .str value), ("clause_reference", .str "c"), ("confidence", .float Number.one)]

/-- A policy with two contradictions on two variables. -/
def barred : RuleSet where
  rules := [.node (textHead "a" "first" "x") [], .node (textHead "b|condition:c" "first" "y") [],
    .node (textHead "a|condition:b" "second" "x") [], .node (textHead "c" "second" "y") []]
  documents := [{ policy := "p", clauses := [{ id := "c" }] }]

def barredPlan : Plan := ⟨barred.documents, barred.rules.map ("p", ·)⟩

def barredPayload : Json :=
  .obj [("rules", .arr [textPayload "a" "first" "x", textPayload "b|condition:c" "first" "y",
      textPayload "a|condition:b" "second" "x", textPayload "c" "second" "y"]),
    ("documents", .arr [.obj [("policy_id", .str "p"),
      ("clauses", .arr [.obj [("clause_id", .str "c")]])]])]

/-- The nodes of the two contradictions. -/
def barredPairs : List (List String) :=
  [["condition:a", "condition:b|condition:c"], ["condition:a|condition:b", "condition:c"]]

/-- The two contradictions are given and not suppressed, and there are no others. -/
theorem exists_barred (table : List Impossibility) : ∃ g r,
    (RuleSet.compile .standard barredPayload).outcome = .ok g ∧
      (g.detect table (some [.contradiction]) none).outcome = .ok r ∧
      (∀ c, g.Gives table .contradiction c →
        ∃ ns ∈ barredPairs, ∀ n, n ∈ c.nodes ↔ n ∈ ns.map Json.str) ∧
      ∀ ns ∈ barredPairs, ∃ c x, g.Gives table .contradiction c ∧ g.Receives c x ∧
        ∀ n, n ∈ c.nodes ↔ n ∈ ns.map Json.str := by
  have hpayload : RuleSet.ofPayload barredPayload = .ok barred := rfl
  obtain ⟨g, hvalid, hbuild, h⟩ : ∃ g, barred.validate .standard = .ok _ ∧
      (barred.build .standard).outcome = .ok g ∧ g.IsDrawnFrom .standard barredPlan :=
    exists_build (by decide +kernel) rfl (by decide +kernel)
  have hsound : g.PassIsSound table .contradiction := h.isLegible.exists_contradictions
  have hselected : ∀ k ∈ selectedPasses (some [.contradiction]), g.PassIsSound table k :=
    fun k hk => by obtain rfl := List.mem_singleton.mp hk; exact hsound
  obtain ⟨r, hr, -⟩ := h.isLegible.exists_reportOf hselected
  obtain ⟨cs, hcs, hof, hcomplete⟩ := h.exists_contradictions_spec
  refine ⟨g, r, (outcome_compile hpayload hvalid).trans hbuild, hr, fun c hc => ?_,
    fun ns hns => ?_⟩
  · have hpairs : ∀ s ∈ barredPlan.scenesOf "p", ∀ b ∈ s.context,
        s.leaf.head.subject = b.head.subject → ∃ ns ∈ barredPairs,
          [Node.conditionKey s.leaf.head.id, Node.conditionKey b.head.id].Perm ns := by
      decide +kernel
    obtain ⟨d, hd, a, b, ⟨s, hs, rfl, hb, hclash⟩, hpair⟩ := h.isOfPair_of_gives hc
    obtain rfl := List.mem_singleton.mp hd
    obtain ⟨ns, hns, hperm⟩ := hpairs s hs b hb hclash.subject_eq
    exact ⟨ns, hns, fun n => (hpair.nodes n).trans (hperm.map Json.str).mem_iff⟩
  · have hclash : ∃ a b, barredPlan.HasClash "p" a b ∧
        ns = [Node.conditionKey a.head.id, Node.conditionKey b.head.id] := by
      rcases List.mem_pair.mp hns with rfl | rfl
      · exact ⟨⟨textHead "a" "first" "x", true⟩, ⟨textHead "b|condition:c" "first" "y", true⟩,
          ⟨_, List.mem_of_mem_head? rfl, rfl, List.mem_of_mem_head? rfl, _, _, rfl, rfl, rfl⟩, rfl⟩
      · exact ⟨⟨textHead "a|condition:b" "second" "x", true⟩, ⟨textHead "c" "second" "y", true⟩,
          ⟨_, List.mem_of_getElem? (i := 2) rfl, rfl, List.mem_of_getElem? (i := 2) rfl, _, _, rfl,
            rfl, rfl⟩, rfl⟩
    obtain ⟨a, b, hclash, rfl⟩ := hclash
    obtain ⟨c, hc, habout⟩ := hcomplete { policy := "p", clauses := [{ id := "c" }] }
      List.mem_cons_self a b hclash
    obtain ⟨_, -, _, _, -, hpair⟩ := hof c hc
    obtain ⟨x, hx, -⟩ := (hsound.isSound ⟨cs, hcs, hc⟩).exists_conflict
    exact ⟨c, x, ⟨cs, hcs, hc⟩,
      ⟨(hsound.isSound ⟨cs, hcs, hc⟩).checkScope_of_lone hpair.policies, hx⟩, habout⟩

theorem pieces_barred : ∀ ns ∈ barredPairs, Conflict.pieces ns =
    ["condition:a".toList, "condition:b".toList, "condition:c".toList] := by
  decide +kernel

/-- The nodes of a contradiction give the same pieces, whichever it is. -/
theorem pieces_of_barred {c : Candidate} {xs ns : List String}
    (hns : ns ∈ barredPairs) (hc : ∀ n, n ∈ c.nodes ↔ n ∈ ns.map Json.str)
    (hxs : c.nodes = xs.map .str) : Conflict.pieces xs =
      ["condition:a".toList, "condition:b".toList, "condition:c".toList] := by
  rw [← pieces_barred ns hns]
  refine Conflict.pieces_congr fun s => ?_
  have hs := hc (.str s)
  rw [hxs] at hs
  simpa using hs

/-- Contradictions between different conditions on different variables are reported as one. -/
theorem merged_barred : ∃ g r c d x y,
    (RuleSet.compile .standard barredPayload).outcome = .ok g ∧
      (g.detect Impossibility.standard (some [.contradiction]) none).outcome = .ok r ∧
      g.Gives Impossibility.standard .contradiction c ∧ g.Receives c x ∧
      g.Gives Impossibility.standard .contradiction d ∧ g.Receives d y ∧
      .str "condition:a" ∈ c.nodes ∧ .str "condition:a" ∉ d.nodes ∧ r.Merges x y := by
  obtain ⟨g, r, hg, hr, hall, hboth⟩ := exists_barred Impossibility.standard
  obtain ⟨c, x, hc, hx, hcnodes⟩ := hboth _ List.mem_cons_self
  obtain ⟨d, y, hd, hy, hdnodes⟩ := hboth _ (List.mem_cons_of_mem _ List.mem_cons_self)
  have hdigests : g.HasDistinctDigests Impossibility.standard
      (selectedPasses (some [.contradiction])) := by
    intro k hk l hl c d xs ys hc hd hxs hys _
    obtain rfl := List.mem_singleton.mp hk
    obtain rfl := List.mem_singleton.mp hl
    obtain ⟨ns, hns, hcnodes⟩ := hall c hc
    obtain ⟨ms, hms, hdnodes⟩ := hall d hd
    exact Conflict.key_eq_iff.mpr
      ⟨rfl, (pieces_of_barred hns hcnodes hxs).trans (pieces_of_barred hms hdnodes hys).symm⟩
  have hgs : ∀ x ∈ [g], ∃ cfg, x.IsCompiled cfg := by
    simpa using ⟨.standard, isCompiled_of_compile hg⟩
  obtain ⟨-, -, xs, ys, hxs, hys, hmerges, -⟩ := merged_iff hgs rfl hr hdigests
    List.mem_cons_self List.mem_cons_self hc hd hx hy
  refine ⟨g, r, c, d, x, y, hg, hr, hc, hx, hd, hy, ?_, ?_, hmerges.mpr ⟨rfl, ?_⟩⟩
  · simp [hcnodes]
  · simp [hdnodes]
  · exact (pieces_of_barred List.mem_cons_self hcnodes hxs).trans
      (pieces_of_barred (List.mem_cons_of_mem _ List.mem_cons_self) hdnodes hys).symm

/-- Candidates that are not suppressed can be reported as one conflict although they are about
different nodes, and different nodes can have one identifying text. -/
theorem not_forall_merged :
    (¬ ∀ (cfg : Settings) (payload : Json) (g : PolicyGraph) (passes : Option (List ConflictKind))
      (r : ConflictReport) (k l : ConflictKind) (c d : Candidate) (x y : Conflict),
      (RuleSet.compile cfg payload).outcome = .ok g →
        (g.detect Impossibility.standard passes none).outcome = .ok r →
        k ∈ selectedPasses passes → l ∈ selectedPasses passes →
        g.Gives Impossibility.standard k c → g.Gives Impossibility.standard l d →
        g.Receives c x → g.Receives d y → r.Merges x y →
          k = l ∧ ∀ n, n ∈ c.nodes ↔ n ∈ d.nodes) ∧
      ¬ ∀ (k l : ConflictKind) (as bs : List String),
        Conflict.key k (as.map Node.conditionKey) = Conflict.key l (bs.map Node.conditionKey) →
          k = l ∧ ∀ s, s ∈ as ↔ s ∈ bs := by
  constructor
  · intro hall
    obtain ⟨g, r, hg, hr, -, hboth⟩ := exists_barred Impossibility.standard
    obtain ⟨c, x, hc, hx, hcnodes⟩ := hboth _ List.mem_cons_self
    obtain ⟨d, y, hd, hy, hdnodes⟩ := hboth _ (List.mem_cons_of_mem _ List.mem_cons_self)
    obtain ⟨xs, hxs, -⟩ := exists_identify hc hx
    obtain ⟨ys, hys, -⟩ := exists_identify hd hy
    have hkey : Conflict.key .contradiction xs = Conflict.key .contradiction ys :=
      Conflict.key_eq_iff.mpr ⟨rfl, (pieces_of_barred List.mem_cons_self hcnodes hxs).trans
        (pieces_of_barred (List.mem_cons_of_mem _ List.mem_cons_self) hdnodes hys).symm⟩
    obtain ⟨-, hnodes⟩ := hall _ _ g _ r _ _ c d x y hg hr List.mem_cons_self List.mem_cons_self
      hc hd hx hy (merges_of_key_eq hr List.mem_cons_self hc hd hx hy hxs hys hkey)
    simpa [hdnodes] using (hnodes (.str "condition:a")).mp (by simp [hcnodes])
  · intro hall
    have hsame := hall .contradiction .contradiction ["a", "b|condition:c"]
      ["a|condition:b", "c"] (by decide +kernel)
    simpa using (hsame.2 "a").mp List.mem_cons_self

end Bars

end PolicyGraph
end Eligibility
