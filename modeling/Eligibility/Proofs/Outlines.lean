import Eligibility.Proofs.Reprinting
/-!
# Outlines of rules

**Outlines.**  The outline of a rule keeps operators, the variables and operands of comparisons, and
the order of the rules below.  The zero with a minus sign counts as the one without, as it does in
comparisons of rules.

**Results.**
* `equivalent_iff`: rules are equivalent when their outlines are the same.
-/

namespace Eligibility

namespace Number

theorem plain_of_same {x y : Number} (h : x.same y = true) : x.plain = y.plain := by
  cases x <;> cases y <;> simp_all [same, plain, value?, zero]

theorem same_of_plain {x y : Number} (hx : x.isFinite = true) (h : x.plain = y.plain) :
    x.same y = true := by
  cases x <;> cases y <;> simp_all [same, plain, value?, zero, isFinite]

end Number

namespace Operand

theorem plain_of_same {v w : Operand} (h : v.same w = true) : v.plain = w.plain := by
  cases v with
  | number x =>
      cases w with
      | number y => exact congrArg number (Number.plain_of_same h)
      | _ => cases h
  | _ => cases w <;> simp_all [same, plain]

theorem plain_plain (v : Operand) : v.plain.plain = v.plain := by
  cases v with
  | number x => cases x <;> rfl
  | _ => rfl

theorem same_of_plain {v w : Operand} (hv : ∀ x, v = .number x → x.isFinite = true)
    (h : v.plain = w.plain) : v.same w = true := by
  cases v with
  | number x =>
      cases w with
      | number y => exact Number.same_of_plain (hv x rfl) (Operand.number.inj h)
      | _ => cases h
  | _ => cases w <;> simp_all [same, plain]

end Operand

namespace Head

/-- What a head says in a plain text. -/
def outline (h : Head) : Head :=
  if h.operator.isLogical then { operator := h.operator }
  else { operator := h.operator, subject := h.subject, value := h.value.map Operand.plain }

theorem outline_of_equivalent {h k : Head} (hk : h.equivalent k = true) :
    h.outline = k.outline := by
  obtain ⟨ho, hrest⟩ := Bool.and_eq_true_iff.mp hk
  replace ho := of_decide_eq_true ho
  unfold outline
  rw [← ho]
  split
  · rfl
  next hlogical =>
    obtain ⟨hsubject, hvalue⟩ := Bool.and_eq_true_iff.mp
      ((Bool.or_eq_true_iff.mp hrest).resolve_left hlogical)
    have hplain : h.value.map Operand.plain = k.value.map Operand.plain := by
      cases hv : h.value <;> cases hw : k.value <;> rw [hv, hw] at hvalue
      · cases hvalue
      · cases hvalue
      · exact congrArg some (Operand.plain_of_same hvalue)
    rw [of_decide_eq_true hsubject, hplain]

theorem equivalent_of_outline {h k : Head} (hx : h.IsFinite) (hk : h.outline = k.outline) :
    h.equivalent k = true := by
  have ho : h.operator = k.operator := by
    have := congrArg Head.operator hk
    unfold outline at this
    split_ifs at this <;> exact this
  unfold outline at hk
  rw [← ho] at hk
  unfold equivalent
  split_ifs at hk with hlogical
  · simp [← ho, hlogical]
  · simp only [Head.mk.injEq, true_and, and_true] at hk
    obtain ⟨hsubject, hvalue⟩ := hk
    have hsame : sameOption Operand.same h.value k.value = true := by
      cases hv : h.value with
      | none =>
          rw [hv] at hvalue
          rw [Option.map_eq_none_iff.mp hvalue.symm]
          rfl
      | some v =>
          rw [hv] at hvalue
          obtain ⟨w, hw, hplain⟩ := Option.map_eq_some_iff.mp hvalue.symm
          rw [hw]
          exact Operand.same_of_plain
            (fun x hvx => hx x (mem_numbers_value (hv.trans (congrArg some hvx)))) hplain.symm
    simp [ho, hsubject, hsame]

end Head

namespace Rule

section Outlines

mutual

/-- What a rule says in its plain text. -/
def outline : Rule → Rule
  | node h cs => node h.outline (outlineAll cs)

/-- What rules say in their plain texts. -/
def outlineAll : List Rule → List Rule
  | [] => []
  | r :: rs => outline r :: outlineAll rs

end

mutual

theorem outline_of_equivalent : ∀ {r t : Rule}, equivalent r t = true → outline r = outline t
  | node h cs, node k ds, hrt => by
      obtain ⟨hh, hcs⟩ := Bool.and_eq_true_iff.mp hrt
      rw [outline, outline, Head.outline_of_equivalent hh, outlineAll_of_equivalentAll hcs]

theorem outlineAll_of_equivalentAll : ∀ {rs ts : List Rule}, equivalentAll rs ts = true →
    outlineAll rs = outlineAll ts
  | [], [], _ => rfl
  | r :: rs, t :: ts, hrt => by
      obtain ⟨hr, hrs⟩ := Bool.and_eq_true_iff.mp hrt
      rw [outlineAll, outlineAll, outline_of_equivalent hr, outlineAll_of_equivalentAll hrs]
  | [], _ :: _, hrt => by cases hrt
  | _ :: _, [], hrt => by cases hrt

end

mutual

theorem equivalent_of_outline : ∀ {r t : Rule}, (∀ s ∈ r.walk, s.head.IsFinite) →
    outline r = outline t → equivalent r t = true
  | node h cs, node k ds, hx, hrt => by
      rw [outline, outline] at hrt
      obtain ⟨hh, hcs⟩ := Rule.node.inj hrt
      have hhead : h.equivalent k = true :=
        Head.equivalent_of_outline (hx (node h cs) (mem_walk_self _)) hh
      have hbelow := equivalentAll_of_outlineAll (fun s hs => hx s (by simp [walk, hs])) hcs
      rw [equivalent, hhead, hbelow]
      rfl

theorem equivalentAll_of_outlineAll : ∀ {rs ts : List Rule},
    (∀ s ∈ walkAll rs, s.head.IsFinite) → outlineAll rs = outlineAll ts →
      equivalentAll rs ts = true
  | [], [], _, _ => rfl
  | r :: rs, t :: ts, hx, hrt => by
      rw [outlineAll, outlineAll] at hrt
      obtain ⟨hr, hrs⟩ := List.cons.inj hrt
      rw [equivalentAll, equivalent_of_outline (fun s hs => hx s (by simp [walkAll, hs])) hr,
        equivalentAll_of_outlineAll (fun s hs => hx s (by simp [walkAll, hs])) hrs]
      rfl
  | [], _ :: _, _, hrt => by cases hrt
  | _ :: _, [], _, hrt => by cases hrt

end

/-- Rules with finite numbers are equivalent when their outlines are the same. -/
theorem equivalent_iff {r t : Rule} (hx : ∀ s ∈ r.walk, s.head.IsFinite) :
    equivalent r t = true ↔ outline r = outline t :=
  ⟨outline_of_equivalent, equivalent_of_outline hx⟩

end Outlines

end Rule
end Eligibility
