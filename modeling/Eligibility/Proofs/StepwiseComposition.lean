import Eligibility.Proofs.SettledValues
import Eligibility.Proofs.WrittenGraphs
/-!
# Graphs that are composed step by step

**Nodes.**  Nodes with new identifiers are absorbed one behind the other, so that the nodes of a
composed graph are absorbed as they stand.  After them everything goes on as it did behind the
nodes of the parts.

**Edges.**  Of edges that agree the first one is kept, whatever their numbers.  What is kept once is
kept again, and what it is compared with later is the same.  The edges of a compiled graph say
different things, since the text of a label tells the label.

**Results.**
* `keptTies_append`, `keptTies_idem`: what is kept of edges.
* `Label.text_inj`: the text of a label tells the label.
* `IsAssembled.isTidy`: a graph alone is composed of its own nodes and edges.
* `compose_append`: composing step by step is composing at once.
-/

namespace Eligibility

section Selves

theorem Json.IsPortable.isSettled {j : Json} (h : j.IsPortable) : j.IsSettled := by
  induction h with
  | null => exact .null
  | bool b => exact .bool b
  | int n => exact .int n
  | float hx _ => exact .float (by rintro rfl; cases hx)
  | str s => exact .str s
  | arr _ ih => exact .arr ih
  | obj hkeys _ ih => exact .obj hkeys ih

/-- Fields with different names, whose values are like themselves, are like themselves. -/
theorem Entries.alike_self {fs : List (String × Json)} (hkeys : (fs.map (·.1)).Nodup)
    (hfs : ∀ f ∈ fs, f.2.alike f.2 = true) :
    Entries.alike Json.alike (ofFields fs) (ofFields fs) = true := by
  have hvalue : ∀ {fs : List (String × Json)} {f : String × Json}, (fs.map (·.1)).Nodup → f ∈ fs →
      valueOf? (.str f.1) (ofFields fs) = some f.2 := by
    intro fs f hkeys hf
    induction fs with
    | nil => cases hf
    | cons e r ih =>
        rw [List.map_cons, List.nodup_cons] at hkeys
        rcases List.mem_cons.mp hf with rfl | hf
        · simp [ofFields, valueOf?]
        · have hne : e.1 ≠ f.1 := fun he => hkeys.1 (he ▸ List.mem_map_of_mem hf)
          simpa [ofFields, valueOf?, hne] using ih hkeys.2 hf
  rw [alike, Bool.and_eq_true, decide_eq_true_eq, List.all_eq_true]
  refine ⟨rfl, fun e he => ?_⟩
  obtain ⟨f, hf, rfl⟩ := List.mem_map.mp he
  rw [hvalue hkeys hf]
  exact hfs f hf

/-- A node that its record gives back agrees with itself. -/
theorem Node.IsPortable.alike_self {n : Node} (h : n.IsPortable) : n.alike n = true := by
  obtain ⟨⟨k, hk⟩, ⟨fs, hproperties, hkeys, hfs⟩, hconfidence⟩ := h
  have hself : Entries.alike Json.alike (n.properties.mapValues Property.toJson)
      (n.properties.mapValues Property.toJson) = true := by
    rw [hproperties, Entries.ofFields_map]
    refine Entries.alike_self (by simpa [Function.comp_def] using hkeys) fun f hf => ?_
    obtain ⟨e, he, rfl⟩ := List.mem_map.mp hf
    exact (Property.isPortable_toJson (hfs e he)).isSettled.alike_self
  have hnumber : n.confidence.alike n.confidence = true := by
    simpa [Json.alike, Json.alikeScalar] using
      (Json.isPortable_float hconfidence).isSettled.alike_self
  rw [Node.alike, hself, hnumber, hk]
  simp

end Selves

namespace PolicyGraph

section Nodes

variable {n : Node} {k : String} {acc ns : List Node} {i j : Nat}

/-- A node with a new identifier is put behind the others. -/
theorem absorb_of_not_mem (hk : n.id = .str k) (h : n.id ∉ acc.map Node.id) :
    absorb i n acc = .ok (acc ++ [n]) := by
  induction acc with
  | nil => rfl
  | cons m r ih =>
      rw [List.map_cons, List.mem_cons, not_or] at h
      have hid : m.id.alike n.id = false := by
        rw [hk, Bool.eq_false_iff, Ne, Json.alike_str_right, ← hk]
        exact Ne.symm h.1
      rw [absorb, hid, ih h.2]
      rfl

theorem absorbAll_of_nodup (hns : ∀ n ∈ ns, ∃ k, n.id = .str k)
    (h : ((acc ++ ns).map Node.id).Nodup) : absorbAll i acc ns = .ok (acc ++ ns) := by
  induction ns generalizing acc with
  | nil => rw [absorbAll, List.append_nil]
  | cons n r ih =>
      obtain ⟨k, hk⟩ := hns n List.mem_cons_self
      have hnew : n.id ∉ acc.map Node.id := by
        rw [List.map_append, List.nodup_append] at h
        exact fun hmem => h.2.2 _ hmem _ List.mem_cons_self rfl
      rw [absorbAll, absorb_of_not_mem hk hnew]
      simp only
      rw [ih (fun m hm => hns m (List.mem_cons_of_mem _ hm)) (by simpa using h),
        List.append_assoc, List.singleton_append]

/-- A node that is there and agrees with itself changes nothing. -/
theorem absorb_of_mem (hk : n.id = .str k) (hself : n.alike n = true)
    (hnodup : (acc.map Node.id).Nodup) (h : n ∈ acc) : absorb i n acc = .ok acc := by
  induction acc with
  | nil => cases h
  | cons m r ih =>
      rw [List.map_cons, List.nodup_cons] at hnodup
      rcases List.mem_cons.mp h with rfl | hmem
      · simp [absorb, hk, hself]
      · have hid : m.id.alike n.id = false := by
          rw [hk, Bool.eq_false_iff, Ne, Json.alike_str_right, ← hk]
          exact fun he => hnodup.1 (he ▸ List.mem_map_of_mem hmem)
        rw [absorb, hid, ih hnodup.2 hmem]
        rfl

theorem absorbAll_of_subset (hns : ∀ n ∈ ns, (∃ k, n.id = .str k) ∧ n.alike n = true)
    (hnodup : (acc.map Node.id).Nodup) (h : ns ⊆ acc) : absorbAll i acc ns = .ok acc := by
  induction ns with
  | nil => rfl
  | cons n r ih =>
      obtain ⟨⟨⟨k, hk⟩, hself⟩, hr⟩ := List.forall_mem_cons.mp hns
      obtain ⟨hmem, hsub⟩ := List.cons_subset.mp h
      rw [absorbAll, absorb_of_mem hk hself hnodup hmem]
      exact ih hr hsub

/-- Whether nodes are absorbed does not depend on the position of their graph. -/
theorem absorb_position (h : absorb i n acc = .ok ns) : absorb j n acc = .ok ns := by
  induction acc generalizing ns with
  | nil => exact h
  | cons m r ih =>
      unfold absorb at h ⊢
      split_ifs at h ⊢
      · obtain ⟨r', hr', rfl⟩ := Attempt.map_eq_ok.mp h
        rw [ih hr', Attempt.map_ok]
      · exact h
      · exact h

theorem absorbAll_position {ms : List Node} (h : absorbAll i acc ns = .ok ms) :
    absorbAll j acc ns = .ok ms := by
  induction ns generalizing acc with
  | nil => exact h
  | cons n r ih =>
      unfold absorbAll at h ⊢
      cases hn : absorb i n acc with
      | error f =>
          rw [hn] at h
          cases h
      | ok acc' =>
          rw [hn] at h
          rw [absorb_position hn]
          exact ih h

theorem composeNodes_position {gs : List PolicyGraph} (h : composeNodes i acc gs = .ok ns) :
    composeNodes j acc gs = .ok ns := by
  induction gs generalizing i j acc with
  | nil => exact h
  | cons g r ih =>
      unfold composeNodes at h ⊢
      cases hg : absorbAll i acc g.nodes with
      | error f =>
          rw [hg] at h
          cases h
      | ok acc' =>
          rw [hg] at h
          rw [absorbAll_position hg]
          exact ih h

/-- The nodes of some graphs are collected before those of others. -/
theorem composeNodes_append (xs ys : List PolicyGraph) : composeNodes i acc (xs ++ ys) =
    composeNodes i acc xs >>= fun acc => composeNodes (i + xs.length) acc ys := by
  induction xs generalizing i acc with
  | nil => rfl
  | cons g r ih =>
      rw [List.cons_append, composeNodes, composeNodes]
      cases absorbAll i acc g.nodes with
      | error f => rfl
      | ok acc' =>
          simp only [ih, List.length_cons]
          rw [Nat.add_right_comm, Nat.add_assoc]

/-- Nodes are refused only where two of them disagree. -/
theorem exists_of_absorb {f : Fault} (h : absorb i n acc = .error f) :
    ∃ id k, f = .conflictingNode id k := by
  induction acc with
  | nil => cases h
  | cons m r ih =>
      unfold absorb at h
      split_ifs at h
      · cases hr : absorb i n r with
        | error e =>
            rw [hr] at h
            cases h
            exact ih hr
        | ok r' =>
            rw [hr] at h
            cases h
      · exact ⟨_, _, (Except.error.inj h).symm⟩

theorem exists_of_absorbAll {f : Fault} (h : absorbAll i acc ns = .error f) :
    ∃ id k, f = .conflictingNode id k := by
  induction ns generalizing acc with
  | nil => cases h
  | cons n r ih =>
      unfold absorbAll at h
      split at h
      · next hn =>
        cases h
        exact exists_of_absorb hn
      · exact ih h

theorem exists_of_composeNodes {gs : List PolicyGraph} {f : Fault}
    (h : composeNodes i acc gs = .error f) : ∃ id k, f = .conflictingNode id k := by
  induction gs generalizing i acc with
  | nil => cases h
  | cons g r ih =>
      unfold composeNodes at h
      split at h
      · next hg =>
        cases h
        exact exists_of_absorbAll hg
      · exact ih h

end Nodes

section Ties

/-- Ties in order, without those that agree with one seen before. -/
def keptTies (seen : List Tie) : List Tie → List Tie
  | [] => []
  | t :: r => if seen.any t.agrees then keptTies seen r else t :: keptTies (t :: seen) r

variable {seen ts us : List Tie} {t : Tie}

theorem firstTies_eq (seen ts : List Tie) :
    firstTies seen ts = (keptTies seen ts).map Tie.edge := by
  induction ts generalizing seen with
  | nil => rfl
  | cons t r ih =>
      unfold firstTies keptTies
      split
      · exact ih seen
      · rw [ih, List.map_cons]

/-- What is kept of two lists: of the second one, what does not agree with anything kept of the
first one. -/
theorem keptTies_append (seen ts us : List Tie) : keptTies seen (ts ++ us) =
    keptTies seen ts ++ keptTies ((keptTies seen ts).reverse ++ seen) us := by
  induction ts generalizing seen with
  | nil => rfl
  | cons t r ih =>
      rw [List.cons_append]
      by_cases ht : seen.any t.agrees = true
      · rw [keptTies, if_pos ht, ih, keptTies, if_pos ht]
      · rw [keptTies, if_neg ht, ih, keptTies, if_neg ht]
        simp

/-- What is kept is kept again. -/
theorem keptTies_idem (seen ts : List Tie) :
    keptTies seen (keptTies seen ts) = keptTies seen ts := by
  induction ts generalizing seen with
  | nil => rfl
  | cons t r ih =>
      by_cases ht : seen.any t.agrees = true
      · rw [keptTies, if_pos ht, ih]
      · rw [keptTies, if_neg ht, keptTies, if_neg ht, ih]

theorem mem_of_mem_keptTies (h : t ∈ keptTies seen ts) : t ∈ ts := by
  induction ts generalizing seen with
  | nil => exact h
  | cons u r ih =>
      unfold keptTies at h
      split at h
      · exact List.mem_cons_of_mem _ (ih h)
      · rcases List.mem_cons.mp h with rfl | h
        · exact List.mem_cons_self
        · exact List.mem_cons_of_mem _ (ih h)

/-- Ties that do not agree with each other are all kept. -/
theorem keptTies_eq_self (hts : ts.Pairwise fun t u => u.agrees t = false)
    (hseen : ∀ t ∈ ts, seen.any t.agrees = false) : keptTies seen ts = ts := by
  induction ts generalizing seen with
  | nil => rfl
  | cons t r ih =>
      obtain ⟨ht, hr⟩ := List.pairwise_cons.mp hts
      obtain ⟨hfirst, hrest⟩ := List.forall_mem_cons.mp hseen
      rw [keptTies, hfirst, if_neg Bool.false_ne_true, ih hr fun u hu => ?_]
      rw [List.any_cons, ht u hu, hrest u hu, Bool.or_self]

/-- Every tie that agrees with itself agrees with one that is kept. -/
theorem any_agrees_of_mem (ht : t ∈ ts) (hself : t.agrees t = true) :
    ((keptTies seen ts).reverse ++ seen).any t.agrees = true := by
  induction ts generalizing seen with
  | nil => cases ht
  | cons u r ih =>
      unfold keptTies
      split
      · next hseen =>
        rcases List.mem_cons.mp ht with rfl | ht
        · rw [List.any_append, hseen, Bool.or_true]
        · exact ih ht
      · rcases List.mem_cons.mp ht with rfl | ht
        · simp [hself]
        · have hany := @ih (u :: seen) ht
          simpa using hany

theorem keptTies_eq_nil (h : ∀ t ∈ ts, seen.any t.agrees = true) : keptTies seen ts = [] := by
  induction ts with
  | nil => rfl
  | cons t r ih =>
      obtain ⟨ht, hr⟩ := List.forall_mem_cons.mp h
      rw [keptTies, if_pos ht, ih hr]

end Ties

section Numbers

variable {es fs : List Edge} {ts : List Tie} {n : Nat}

/-- An edge without its number. -/
def bare (e : Edge) : Edge := { e with id := .null }

/-- A tie whose edge has no number. -/
def Tie.bare (t : Tie) : Tie := ⟨PolicyGraph.bare t.edge, t.text⟩

theorem renumber_bare (n : Nat) (es : List Edge) : renumber n (es.map bare) = renumber n es := by
  induction es generalizing n with
  | nil => rfl
  | cons e r ih => rw [List.map_cons, renumber, ih, renumber, bare]

theorem bare_renumber (n : Nat) (es : List Edge) : (renumber n es).map bare = es.map bare := by
  induction es generalizing n with
  | nil => rfl
  | cons e r ih =>
      rw [renumber, List.map_cons, ih, List.map_cons]
      rfl

theorem tiesOf_bare (es : List Edge) :
    tiesOf (es.map bare) = (tiesOf es).map (List.map Tie.bare) := by
  induction es with
  | nil => rfl
  | cons e r ih =>
      have htext : tieText (bare e) = tieText e := rfl
      rw [List.map_cons, tiesOf, tiesOf, ih, htext]
      cases tieText e with
      | error f => rfl
      | ok text => cases tiesOf r <;> rfl

theorem keptTies_bare (seen ts : List Tie) :
    keptTies (seen.map Tie.bare) (ts.map Tie.bare) = (keptTies seen ts).map Tie.bare := by
  induction ts generalizing seen with
  | nil => rfl
  | cons t r ih =>
      have hany : (seen.map Tie.bare).any t.bare.agrees = seen.any t.agrees := by
        rw [List.any_map]
        rfl
      rw [List.map_cons, keptTies, keptTies, hany]
      split
      · exact ih seen
      · rw [List.map_cons, ← ih, List.map_cons]

theorem tiesOf_append : tiesOf (es ++ fs) =
    tiesOf es >>= fun ts => (tiesOf fs).map fun us => ts ++ us := by
  induction es with
  | nil => cases h : tiesOf fs <;> simp [tiesOf, h, Except.map]
  | cons e r ih =>
      rw [List.cons_append, tiesOf, tiesOf, ih]
      cases tieText e with
      | error f => rfl
      | ok text =>
          cases tiesOf r with
          | error f => rfl
          | ok ts => cases tiesOf fs <;> rfl

/-- Ties with the right texts are those of their edges. -/
theorem tiesOf_map_edge (h : ∀ t ∈ ts, tieText t.edge = .ok t.text) :
    tiesOf (ts.map Tie.edge) = .ok ts := by
  induction ts with
  | nil => rfl
  | cons t r ih =>
      obtain ⟨ht, hr⟩ := List.forall_mem_cons.mp h
      rw [List.map_cons, tiesOf, ht, ih hr]
      rfl

/-- The edges of graphs, without their numbers. -/
def bareEdges (gs : List PolicyGraph) : List Edge := (gs.flatMap PolicyGraph.edges).map bare

/-- The edges of a composed graph do not depend on the numbers of edges. -/
theorem composeEdges_eq (gs : List PolicyGraph) : composeEdges gs =
    (tiesOf (bareEdges gs)).map fun ts => renumber 0 ((keptTies [] ts).map Tie.edge) := by
  rw [composeEdges, bareEdges, tiesOf_bare]
  cases tiesOf (gs.flatMap PolicyGraph.edges) with
  | error f => rfl
  | ok ts =>
      have hkept := keptTies_bare [] ts
      rw [Attempt.map_ok, Attempt.map_ok, Attempt.map_ok, firstTies_eq, ← renumber_bare]
      rw [List.map_nil] at hkept
      rw [hkept, List.map_map, List.map_map]
      rfl

/-- The edges of a composed graph stand for those of its parts. -/
theorem composeEdges_cons {c : PolicyGraph} {xs : List PolicyGraph}
    (hc : composeEdges xs = .ok c.edges) (ys : List PolicyGraph) :
    composeEdges (c :: ys) = composeEdges (xs ++ ys) := by
  rw [composeEdges_eq] at hc
  obtain ⟨ts, hts, hedges⟩ := Attempt.map_eq_ok.mp hc
  obtain ⟨hmap, htexts⟩ := tiesOf_eq_ok hts
  have hbare : c.edges.map bare = (keptTies [] ts).map Tie.edge := by
    rw [← hedges, bare_renumber, List.map_map]
    refine List.map_congr_left fun t ht => ?_
    have hmem : t.edge ∈ bareEdges xs := hmap ▸ List.mem_map_of_mem (mem_of_mem_keptTies ht)
    obtain ⟨e, -, he⟩ := List.mem_map.mp hmem
    rw [Function.comp_apply, ← he]
    rfl
  have hkept : tiesOf (c.edges.map bare) = .ok (keptTies [] ts) := by
    rw [hbare, tiesOf_map_edge fun t ht => htexts t (mem_of_mem_keptTies ht)]
  have hcons : bareEdges (c :: ys) = c.edges.map bare ++ bareEdges ys := by simp [bareEdges]
  have happend : bareEdges (xs ++ ys) = bareEdges xs ++ bareEdges ys := by simp [bareEdges]
  rw [composeEdges_eq, composeEdges_eq, hcons, happend, tiesOf_append, tiesOf_append, hkept, hts,
    Attempt.ok_bind, Attempt.ok_bind]
  cases tiesOf (bareEdges ys) with
  | error f => rfl
  | ok us =>
      rw [Attempt.map_ok, Attempt.map_ok, Attempt.map_ok, Attempt.map_ok, keptTies_append,
        keptTies_append, keptTies_idem]

end Numbers

end PolicyGraph

section Labels

/-- A quoted text tells where it ends. -/
theorem Text.quoteChars_append_inj {cs ds r r' : List Char}
    (h : quoteChars cs ++ r = quoteChars ds ++ r') : cs = ds ∧ r = r' := by
  have hread : ∀ cs r : List Char, quoteChars cs ++ r = '"' :: (escape cs ++ '"' :: r) := by
    simp [quoteChars]
  rw [hread, hread, List.cons_inj_right] at h
  have hunquote := congrArg unquote h
  rw [unquote_escape, unquote_escape, Except.ok.injEq, Prod.mk.injEq] at hunquote
  exact hunquote

/-- The text of fields tells the name of the first one. -/
theorem Json.compactFields_cons_inj {first : Bool} {k k' : String} {v v' : Json}
    {fs fs' : List (String × Json)} {r r' : List Char}
    (h : compactFields first ((k, v) :: fs) ++ r = compactFields first ((k', v') :: fs') ++ r') :
    k = k' ∧ compactChars v ++ (compactFields false fs ++ r) =
      compactChars v' ++ (compactFields false fs' ++ r') := by
  simp only [compactFields, List.append_assoc, List.append_cancel_left_eq] at h
  obtain ⟨hkey, hrest⟩ := Text.quoteChars_append_inj h
  refine ⟨String.toList_inj.mp hkey, ?_⟩
  simpa using hrest

namespace Label

/-- The fields of a label in rising order of their names. -/
def sortedFields : Label → List (String × Json)
  | plain => []
  | root i => linkFields none i
  | operand o i => linkFields (some o) i
  | via c => [("via_clause", .str c)]

/-- The text of a label. -/
def text (l : Label) : String := Json.compact (.obj l.sortedFields)

theorem tieText_eq {e : Edge} {l : Label} (he : e.properties = Entries.ofFields l.properties) :
    PolicyGraph.tieText e = .ok l.text := by
  cases l with
  | plain =>
      have hsort : Name.sort? [] = some [] := by
        simpa [Name.sortTexts] using Name.sort?_strs []
      simp [PolicyGraph.tieText, he, properties, Entries.ofFields, Fault.sorted, hsort, text,
        sortedFields]
  | root i => exact tieText_link (o := none) he
  | operand o i => exact tieText_link (o := some o) he
  | via c =>
      have hsort : Name.sort? [Json.str "via_clause"] = some [Json.str "via_clause"] := by
        simpa [Name.sortTexts] using Name.sort?_strs ["via_clause"]
      simp [PolicyGraph.tieText, he, properties, Entries.ofFields, Fault.sorted, hsort, text,
        sortedFields, Entries.valueOf?, Json.sorted, Name.key]

/-- The text of a label tells the label. -/
theorem text_inj {l m : Label} (h : l.text = m.text) : l = m := by
  have hchars : Json.compactFields true l.sortedFields ++ ['}'] =
      Json.compactFields true m.sortedFields ++ ['}'] :=
    (List.cons_inj_right _).mp (String.ofList_inj.mp h)
  cases l with
  | plain =>
      cases m <;> simp [sortedFields, linkFields, Json.compactFields, Text.quoteChars] at hchars ⊢
  | root i =>
      cases m with
      | plain => simp [sortedFields, linkFields, Json.compactFields, Text.quoteChars] at hchars
      | root j => exact congrArg root (tieText_inj (o := none) h)
      | operand o j => exact absurd (Json.compactFields_cons_inj hchars).1 (by decide)
      | via c => exact absurd (Json.compactFields_cons_inj hchars).1 (by decide)
  | operand o i =>
      cases m with
      | plain => simp [sortedFields, linkFields, Json.compactFields, Text.quoteChars] at hchars
      | root j => exact absurd (Json.compactFields_cons_inj hchars).1 (by decide)
      | operand q j =>
          obtain ⟨-, hnegated⟩ := Json.compactFields_cons_inj hchars
          have hname : o.name = q.name := by
            by_cases ho : o = .not <;> by_cases hq : q = .not
            · rw [ho, hq]
            · simp [ho, hq, Json.compactChars, Json.scalarText] at hnegated
            · simp [ho, hq, Json.compactChars, Json.scalarText] at hnegated
            · simp only [ho, hq, decide_false, List.append_cancel_left_eq] at hnegated
              obtain ⟨-, hoperator⟩ := Json.compactFields_cons_inj hnegated
              exact String.toList_inj.mp (Text.quoteChars_append_inj hoperator).1
          obtain rfl : o = q := by
            simpa [Operator.ofName?_name] using congrArg Operator.ofName? hname
          exact congrArg (operand o) (tieText_inj (o := some o) h)
      | via c => exact absurd (Json.compactFields_cons_inj hchars).1 (by decide)
  | via c =>
      cases m with
      | plain => simp [sortedFields, Json.compactFields, Text.quoteChars] at hchars
      | root j => exact absurd (Json.compactFields_cons_inj hchars).1 (by decide)
      | operand o j => exact absurd (Json.compactFields_cons_inj hchars).1 (by decide)
      | via d =>
          obtain ⟨-, hclause⟩ := Json.compactFields_cons_inj hchars
          exact congrArg via (String.toList_inj.mp (Text.quoteChars_append_inj hclause).1)

end Label

end Labels

section Drafts

/-- The tie of the edge of a draft. -/
def Draft.tie (n : Nat) (d : Draft) : PolicyGraph.Tie := ⟨d.toEdge n, d.label.text⟩

/-- The ties of the edges of drafts, the first one drawn after `n` others. -/
def Draft.ties (n : Nat) : List Draft → List PolicyGraph.Tie
  | [] => []
  | d :: r => d.tie n :: ties (n + 1) r

namespace Draft

variable {ds : List Draft} {n : Nat}

theorem tiesOf_number (n : Nat) (ds : List Draft) :
    PolicyGraph.tiesOf (number n ds) = .ok (ties n ds) := by
  induction ds generalizing n with
  | nil => rfl
  | cons d r ih =>
      have htext : PolicyGraph.tieText (d.toEdge n) = .ok d.label.text := Label.tieText_eq rfl
      rw [number, PolicyGraph.tiesOf, htext, ih]
      rfl

/-- Ties of drafts agree only if they are ties of one draft. -/
theorem eq_of_agrees {d e : Draft} {i j : Nat} (h : (d.tie i).agrees (e.tie j) = true) : d = e := by
  rw [PolicyGraph.Tie.agrees, Bool.and_eq_true, Bool.and_eq_true, Bool.and_eq_true] at h
  obtain ⟨⟨⟨hsource, htarget⟩, hrelation⟩, htext⟩ := h
  have hsource : d.source = e.source := by simpa [tie, toEdge] using hsource
  have htarget : d.target = e.target := by simpa [tie, toEdge] using htarget
  have hrelation : d.relation = e.relation := of_decide_eq_true hrelation
  have hlabel : d.label = e.label := Label.text_inj (of_decide_eq_true htext)
  cases d
  cases e
  simp_all

theorem exists_of_mem_ties {t : PolicyGraph.Tie} (h : t ∈ ties n ds) :
    ∃ d ∈ ds, ∃ i, t = d.tie i := by
  induction ds generalizing n with
  | nil => cases h
  | cons d r ih =>
      rcases List.mem_cons.mp h with rfl | h
      · exact ⟨d, List.mem_cons_self, n, rfl⟩
      · obtain ⟨e, he, hi⟩ := ih h
        exact ⟨e, List.mem_cons_of_mem _ he, hi⟩

theorem pairwise_ties (h : ds.Nodup) : (ties n ds).Pairwise fun t u => u.agrees t = false := by
  induction ds generalizing n with
  | nil => exact .nil
  | cons d r ih =>
      obtain ⟨hd, hr⟩ := List.nodup_cons.mp h
      refine List.pairwise_cons.mpr ⟨fun u hu => ?_, ih hr⟩
      obtain ⟨e, he, i, rfl⟩ := exists_of_mem_ties hu
      exact Bool.eq_false_iff.mpr fun hagrees => hd (eq_of_agrees hagrees ▸ he)

theorem renumber_number (n : Nat) (ds : List Draft) :
    PolicyGraph.renumber n (number n ds) = number n ds := by
  induction ds generalizing n with
  | nil => rfl
  | cons d r ih =>
      rw [number, PolicyGraph.renumber, ih]
      rfl

end Draft

end Drafts

namespace PolicyGraph

section Tidiness

variable {cfg : Settings} {g c : PolicyGraph} {p : Plan} {gs : List PolicyGraph}

theorem IsPortable.nodup (h : g.IsPortable) : (g.nodes.map Node.id).Nodup :=
  (areDistinct_iff_nodup fun n hn => (h.nodes n hn).id).mp (fault?_eq_none_iff.mp h.sound).distinct

/-- A graph that its record gives back is textual. -/
theorem IsPortable.isTextual (h : g.IsPortable) : g.IsTextual := by
  refine isTextual_of_fault? (fun n hn => (h.nodes n hn).id) (fun e he => ?_)
    (fun e he => (h.edges e he).label) h.sound
  obtain ⟨s, hs⟩ := (h.edges e he).source
  obtain ⟨t, ht⟩ := (h.edges e he).target
  exact ⟨s, t, hs, ht⟩

/-- A graph that alone is composed of its own nodes and edges. -/
structure IsTidy (g : PolicyGraph) : Prop where
  portable : g.IsPortable
  edges : composeEdges [g] = .ok g.edges

theorem IsTidy.absorbAll_nodes (h : g.IsTidy) (i : Nat) :
    absorbAll i [] g.nodes = .ok g.nodes :=
  absorbAll_of_nodup (fun n hn => (h.portable.nodes n hn).id) h.portable.nodup

/-- The edges of a compiled graph say different things. -/
theorem IsDrawnFrom.composeEdges_eq (h : g.IsDrawnFrom cfg p) :
    composeEdges [g] = .ok g.edges := by
  have hkept : keptTies [] (Draft.ties 0 p.drawn) = Draft.ties 0 p.drawn :=
    keptTies_eq_self (Draft.pairwise_ties (Draft.firsts_nodup _ _)) fun _ _ => rfl
  have hedges : g.edges = Draft.number 0 p.drawn := h.edges
  have hties := Draft.tiesOf_number 0 p.drawn
  rw [composeEdges, List.flatMap_cons, List.flatMap_nil, List.append_nil, hedges, hties,
    Attempt.map_ok, firstTies_eq, hkept, (tiesOf_eq_ok hties).1, Draft.renumber_number]

/-- A composed graph has the collected nodes and the edges that are kept. -/
theorem spec_of_compose (hgs : ∀ g ∈ gs, g.IsTidy) (h : compose gs = .ok c) :
    composeNodes 0 [] gs = .ok c.nodes ∧ composeEdges gs = .ok c.edges := by
  rcases compose_eq_ok h with rfl | ⟨ns, es, hns, hes, rfl, rfl⟩
  · have hc := hgs c List.mem_cons_self
    exact ⟨by rw [composeNodes, hc.absorbAll_nodes]; rfl, hc.edges⟩
  · exact ⟨hns, hes⟩

/-- A graph that is assembled out of payloads is composed of its own nodes and edges. -/
theorem IsAssembled.isTidy (h : g.IsAssembled) : g.IsTidy := by
  induction h with
  | compiled hpayload h =>
      obtain ⟨p, hp⟩ := (isCompiled_of_compile h).exists_isDrawnFrom
      exact ⟨isPortable_of_compile hpayload h, hp.composeEdges_eq⟩
  | @composed gs c hgs h ih =>
      have hedges := (spec_of_compose ih h).2
      refine ⟨isPortable_of_compose (fun g hg => (ih g hg).portable) h, ?_⟩
      rw [composeEdges_cons hedges, List.append_nil, hedges]

end Tidiness

section Steps

variable {c d e : PolicyGraph} {gs xs ys : List PolicyGraph}

/-- Whether graphs are refused, as they do not make a valid graph. -/
def AreRefused (gs : List PolicyGraph) : Prop :=
  ∃ f r, compose gs = .error f ∧ f.report? = some r ∧ r.code = "INVALID_GRAPH"

/-- Graphs that cannot be composed are refused since two nodes disagree. -/
theorem composeNodes_of_compose (hgs : ∀ g ∈ gs, g.IsTidy) {f : Fault}
    (h : compose gs = .error f) : composeNodes 0 [] gs = .error f := by
  cases hns : composeNodes 0 [] gs with
  | ok ns =>
      obtain ⟨c, hc⟩ := exists_compose (fun g hg => (hgs g hg).portable.isTextual) hns
      rw [hc] at h
      cases h
  | error f' =>
      unfold compose at h
      split at h
      · cases h
      · simp only [hns, Except.error.injEq] at h
        rw [h]

theorem areRefused_of_compose (hgs : ∀ g ∈ gs, g.IsTidy) {f : Fault} (h : compose gs = .error f) :
    AreRefused gs := by
  obtain ⟨id, k, rfl⟩ := exists_of_composeNodes (composeNodes_of_compose hgs h)
  exact ⟨_, _, h, rfl, rfl⟩

theorem exists_compose_of_not_areRefused (hgs : ∀ g ∈ gs, g.IsTidy) (h : ¬ AreRefused gs) :
    ∃ c, compose gs = .ok c := by
  cases hc : compose gs with
  | ok c => exact ⟨c, rfl⟩
  | error f => exact absurd (areRefused_of_compose hgs hc) h

/-- The nodes of a composed graph stand for those of its parts. -/
theorem composeNodes_cons (hc : c.IsTidy) (hns : composeNodes 0 [] xs = .ok c.nodes)
    {ns : List Node} :
    composeNodes 0 [] (c :: ys) = .ok ns ↔ composeNodes 0 [] (xs ++ ys) = .ok ns := by
  rw [composeNodes_append, hns, Attempt.ok_bind, composeNodes, hc.absorbAll_nodes]
  exact ⟨composeNodes_position, composeNodes_position⟩

/-- What is composed of a composed graph and others is composed of its parts and the others. -/
theorem compose_cons (hxs : ∀ g ∈ xs, g.IsTidy) (hys : ∀ g ∈ ys, g.IsTidy) (hc : c.IsTidy)
    (h : compose xs = .ok c) {ns : List Node} {es : List Edge} :
    (∃ d, compose (c :: ys) = .ok d ∧ d.nodes = ns ∧ d.edges = es) ↔
      ∃ e, compose (xs ++ ys) = .ok e ∧ e.nodes = ns ∧ e.edges = es := by
  obtain ⟨hns, hes⟩ := spec_of_compose hxs h
  have hof : ∀ {gs : List PolicyGraph}, (∀ g ∈ gs, g.IsTidy) →
      ((∃ d, compose gs = .ok d ∧ d.nodes = ns ∧ d.edges = es) ↔
        composeNodes 0 [] gs = .ok ns ∧ composeEdges gs = .ok es) := by
    intro gs hgs
    constructor
    · rintro ⟨d, hd, rfl, rfl⟩
      exact spec_of_compose hgs hd
    · rintro ⟨hns, hes⟩
      obtain ⟨d, hd⟩ := exists_compose (fun g hg => (hgs g hg).portable.isTextual) hns
      obtain ⟨hns', hes'⟩ := spec_of_compose hgs hd
      exact ⟨d, hd, Except.ok.inj (hns'.symm.trans hns), Except.ok.inj (hes'.symm.trans hes)⟩
  rw [hof (List.forall_mem_cons.mpr ⟨hc, hys⟩), hof (List.forall_mem_append.mpr ⟨hxs, hys⟩),
    composeNodes_cons hc hns, composeEdges_cons hes]

/-- A graph composed with itself has the same nodes and edges. -/
theorem IsTidy.exists_compose_self {g : PolicyGraph} (h : g.IsTidy) :
    ∃ d, compose [g, g] = .ok d ∧ d.nodes = g.nodes ∧ d.edges = g.edges := by
  have hboth : ∀ x ∈ [g, g], x.IsTidy := by simpa using h
  have hns : composeNodes 0 [] [g, g] = .ok g.nodes := by
    have hself : absorbAll 1 g.nodes g.nodes = .ok g.nodes :=
      absorbAll_of_subset
        (fun n hn => ⟨(h.portable.nodes n hn).id, (h.portable.nodes n hn).alike_self⟩)
        h.portable.nodup (List.Subset.refl _)
    rw [composeNodes, h.absorbAll_nodes]
    simp only
    rw [composeNodes, hself]
    rfl
  have hes : composeEdges [g, g] = .ok g.edges := by
    have hedges := h.edges
    rw [composeEdges] at hedges ⊢
    obtain ⟨ts, hts, hrenumber⟩ := Attempt.map_eq_ok.mp hedges
    obtain ⟨hmap, -⟩ := tiesOf_eq_ok hts
    have hself : ∀ t ∈ ts, t.agrees t = true := by
      intro t ht
      have hedge : t.edge ∈ g.edges := by
        have hmem := List.mem_map_of_mem (f := Tie.edge) ht
        rw [hmap] at hmem
        simpa using hmem
      obtain ⟨s, hs⟩ := (h.portable.edges _ hedge).source
      obtain ⟨u, hu⟩ := (h.portable.edges _ hedge).target
      simp [Tie.agrees, hs, hu]
    have htwice : tiesOf ([g, g].flatMap PolicyGraph.edges) = .ok (ts ++ ts) := by
      have hsingle : [g].flatMap PolicyGraph.edges = g.edges := by simp
      rw [hsingle] at hts
      rw [List.flatMap_cons, hsingle, tiesOf_append, hts]
      rfl
    rw [htwice, Attempt.map_ok, firstTies_eq, keptTies_append,
      keptTies_eq_nil fun t ht => any_agrees_of_mem ht (hself t ht), List.append_nil,
      ← firstTies_eq, hrenumber]
  obtain ⟨d, hd⟩ := exists_compose (fun g hg => (hboth g hg).portable.isTextual) hns
  obtain ⟨hns', hes'⟩ := spec_of_compose hboth hd
  exact ⟨d, hd, Except.ok.inj (hns'.symm.trans hns), Except.ok.inj (hes'.symm.trans hes)⟩

/-- Composing graphs step by step is composing them at once: it is refused where one of the steps
is, and otherwise gives the same nodes and edges in the same order.  A graph composed with itself
stays as it is. -/
theorem compose_append (h : ∀ g ∈ xs ++ ys, g.IsAssembled) :
    (AreRefused (xs ++ ys) ↔ (∃ f, compose xs = .error f) ∨
      ∃ c f, compose xs = .ok c ∧ compose (c :: ys) = .error f) ∧
    (¬ AreRefused (xs ++ ys) → ∃ c d e, compose xs = .ok c ∧ compose (c :: ys) = .ok d ∧
      compose (xs ++ ys) = .ok e ∧ d.nodes = e.nodes ∧ d.edges = e.edges) ∧
    ∀ g ∈ xs ++ ys, ∃ d, compose [g, g] = .ok d ∧ d.nodes = g.nodes ∧ d.edges = g.edges := by
  have hall : ∀ g ∈ xs ++ ys, g.IsTidy := fun g hg => (h g hg).isTidy
  obtain ⟨hxs, hys⟩ := List.forall_mem_append.mp hall
  have hassembled : ∀ {c}, compose xs = .ok c → c.IsTidy := fun hc =>
    (IsAssembled.composed (fun g hg => h g (List.mem_append_left _ hg)) hc).isTidy
  have hnone : ∀ {e}, compose (xs ++ ys) = .ok e → ¬ AreRefused (xs ++ ys) := by
    rintro e he ⟨f, r, hf, -⟩
    rw [he] at hf
    cases hf
  have hfirst : ∀ {f}, compose xs = .error f → AreRefused (xs ++ ys) := by
    intro f hf
    by_contra hnot
    obtain ⟨e, he⟩ := exists_compose_of_not_areRefused hall hnot
    have hns := (spec_of_compose hall he).1
    rw [composeNodes_append, composeNodes_of_compose hxs hf] at hns
    cases hns
  have hsteps : ¬ AreRefused (xs ++ ys) → ∃ c d e, compose xs = .ok c ∧ compose (c :: ys) = .ok d ∧
      compose (xs ++ ys) = .ok e ∧ d.nodes = e.nodes ∧ d.edges = e.edges := by
    intro hnot
    obtain ⟨e, he⟩ := exists_compose_of_not_areRefused hall hnot
    cases hc : compose xs with
    | error f => exact absurd (hfirst hc) hnot
    | ok c =>
        obtain ⟨d, hd, hns, hes⟩ := (compose_cons hxs hys (hassembled hc) hc).mpr ⟨e, he, rfl, rfl⟩
        exact ⟨c, d, e, rfl, hd, he, hns, hes⟩
  refine ⟨⟨fun hrefused => ?_, ?_⟩, hsteps, fun g hg => (hall g hg).exists_compose_self⟩
  · cases hc : compose xs with
    | error f => exact .inl ⟨f, rfl⟩
    | ok c =>
        cases hd : compose (c :: ys) with
        | error f => exact .inr ⟨c, f, rfl, hd⟩
        | ok d =>
            obtain ⟨e, he, -⟩ := (compose_cons hxs hys (hassembled hc) hc).mp ⟨d, hd, rfl, rfl⟩
            exact absurd hrefused (hnone he)
  · rintro (⟨f, hf⟩ | ⟨c, f, hc, hf⟩)
    · exact hfirst hf
    · by_contra hnot
      obtain ⟨c', d, e, hc', hd, -⟩ := hsteps hnot
      obtain rfl : c = c' := Except.ok.inj (hc.symm.trans hc')
      rw [hd] at hf
      cases hf

/-- A policy and the one that it requires are composed, and the first one is composed again with
what they give. -/
theorem compose_append_joined : ∃ g g' : PolicyGraph,
    (RuleSet.compile .standard shared.toJson).outcome = .ok g ∧
    (RuleSet.compile .standard required.toJson).outcome = .ok g' ∧
    ∃ c d e, compose [g, g'] = .ok c ∧ compose [c, g] = .ok d ∧ compose [g, g', g] = .ok e ∧
      d.nodes = e.nodes ∧ d.edges = e.edges := by
  obtain ⟨g, hpayload, hg, hdrawn, -⟩ := exists_joined (.inl ⟨rfl, rfl⟩)
  obtain ⟨g', hpayload', hg', hdrawn', -⟩ := exists_joined (.inr ⟨rfl, rfl⟩)
  have hassembled := IsAssembled.compiled hpayload hg
  have hassembled' := IsAssembled.compiled hpayload' hg'
  have hall : ∀ x ∈ [g, g'] ++ [g], x.IsAssembled := by
    simpa using ⟨hassembled, hassembled', hassembled⟩
  have hok : (composeNodes 0 [] ([g, g'] ++ [g])).isOk = true := by
    simp only [List.cons_append, List.nil_append, composeNodes, hdrawn.nodes, hdrawn'.nodes]
    decide +kernel
  have hnot : ¬ AreRefused ([g, g'] ++ [g]) := by
    rintro ⟨f, r, hf, -⟩
    obtain ⟨e, he⟩ := exists_compose_of_isOk
      (fun x hx => (hall x hx).isTidy.portable.isTextual) hok
    rw [he] at hf
    cases hf
  exact ⟨g, g', hg, hg', (compose_append hall).2.1 hnot⟩

end Steps

end PolicyGraph
end Eligibility
