import Eligibility.Proofs.Trails
/-!
# Negation normal forms

**Rewriting.**  The normal form of a tree that is to take a truth value has no negations: a
negation gives way to its operand with the opposite demand, and below an odd number of
negations conjunctions and disjunctions are exchanged and comparisons complemented.

**Analysis.**  The paths and the requirements of a policy are read off the tree as it
stands, with the demand turned at every negation.  Both readings ask for the same
constraints in the same order, whatever the rules are called.

**Results.**
* `operator_ne_not_of_mem_normalForm`: normal forms have no negations.
* `asksLike_normalForm`: a tree and its normal form ask for the same.
* `asksLike_anonymous`: what a tree asks for does not depend on the names of its rules.
* `conditions_normalForm`: two policies, one with a tree and one with its normal form.
-/

namespace Eligibility

/-- The operator that takes the place of an operator below an odd number of negations. -/
def Operator.opposite : Operator → Operator
  | .and => .or
  | .or => .and
  | o => o.negated?.getD o

namespace Rule
open PolicyGraph (isConjunctive)

section Forms

/-- The operator of a rule in the normal form, where the rule is to take a truth value. -/
def operatorFor (positive : Bool) (o : Operator) : Operator := if positive then o else o.opposite

mutual

/-- The negation normal form of a tree that is to take a truth value. -/
def normalForm (positive : Bool) : Rule → Rule
  | node h cs =>
      if h.operator = .not then (normalForms (!positive) cs).headD (node h [])
      else node { h with operator := operatorFor positive h.operator } (normalForms positive cs)

/-- The negation normal forms of several trees. -/
def normalForms (positive : Bool) : List Rule → List Rule
  | [] => []
  | r :: rs => normalForm positive r :: normalForms positive rs

end

mutual

/-- A tree without the identifiers of its rules. -/
def anonymous : Rule → Rule
  | node h cs => node { h with id := "" } (anonymousAll cs)

/-- Several trees without the identifiers of their rules. -/
def anonymousAll : List Rule → List Rule
  | [] => []
  | r :: rs => anonymous r :: anonymousAll rs

end

theorem operatorFor_ne_not {o : Operator} (ho : o ≠ .not) (positive : Bool) :
    operatorFor positive o ≠ .not := by
  cases positive <;> cases o <;> simp_all [operatorFor, Operator.opposite, Operator.negated?]

theorem isLogical_operatorFor (positive : Bool) (o : Operator) :
    (operatorFor positive o).isLogical = o.isLogical := by
  cases positive <;> cases o <;> rfl

/-- An operator passes a demand on to all its operands just when the operator in its place does. -/
theorem isConjunctive_operatorFor {o : Operator} (hl : o.isLogical = true) (hn : o ≠ .not)
    (positive : Bool) :
    isConjunctive (some (operatorFor positive o)) true = isConjunctive (some o) positive := by
  cases positive <;> cases o <;> first | rfl | contradiction

mutual

/-- Normal forms have no negations. -/
theorem operator_ne_not_of_mem_normalForm {t : Rule} (positive : Bool) :
    ∀ r : Rule, AreSound r.walk → t ∈ (r.normalForm positive).walk → t.head.operator ≠ .not
  | node h cs, hs, ht => by
      rw [normalForm] at ht
      split_ifs at ht with hn
      · have ih := operator_ne_not_of_mem_normalForms (t := t) (!positive) cs hs.below
        obtain ⟨c, rfl⟩ := hs.exists_operand hn
        exact ih (mem_walkAll.mpr ⟨_, List.mem_cons_self, ht⟩)
      · rw [walk] at ht
        rcases List.mem_cons.mp ht with rfl | ht
        · exact operatorFor_ne_not hn positive
        · exact operator_ne_not_of_mem_normalForms positive cs hs.below ht

theorem operator_ne_not_of_mem_normalForms {t : Rule} (positive : Bool) :
    ∀ rs : List Rule, AreSound (walkAll rs) → t ∈ walkAll (normalForms positive rs) →
      t.head.operator ≠ .not
  | [], _, ht => by simp [normalForms, walkAll] at ht
  | r :: rs, hs, ht => by
      rw [normalForms, walkAll] at ht
      rcases List.mem_append.mp ht with ht | ht
      · exact operator_ne_not_of_mem_normalForm positive r hs.cons.1 ht
      · exact operator_ne_not_of_mem_normalForms positive rs hs.cons.2 ht

end

end Forms

end Rule

section Asking

/-- The constraints that some commitments ask for. -/
def Commitment.asked (cs : List Commitment) : List (Option Constraint) :=
  cs.map Commitment.constraint?

/-- The constraint that a scene asks for, and those that stand beside it. -/
def Scene.asked (s : Scene) : Option Constraint × List (Option Constraint) :=
  (s.leaf.constraint?, Commitment.asked s.context)

open Commitment (asked)

theorem Commitment.asked_append (cs ds : List Commitment) :
    asked (cs ++ ds) = asked cs ++ asked ds :=
  List.map_append

namespace Rule
open PolicyGraph (isConjunctive)

/-- Whether two trees, each of which is to take a truth value, force commitments to the same
constraints and have scenes of the same constraints, in the same order. -/
structure AsksLike (r : Rule) (positive : Bool) (r' : Rule) (positive' : Bool) : Prop where
  forced : asked (r.forced positive) = asked (r'.forced positive')
  scenes (trail trail' : List String) {context context' : List Commitment} :
    asked context = asked context' →
      (r.scenes trail context positive).map Scene.asked =
        (r'.scenes trail' context' positive').map Scene.asked

variable {positive positive' : Bool} {rs rs' : List Rule}

section Operands

variable (h : List.Forall₂ (fun r r' => AsksLike r positive r' positive') rs rs')
include h

theorem asked_forcedAll : asked (forcedAll positive rs) = asked (forcedAll positive' rs') := by
  induction h with
  | nil => rfl
  | cons hr _ ih =>
      rw [forcedAll, forcedAll, Commitment.asked_append, Commitment.asked_append, hr.forced, ih]

theorem asked_scenesBeside (trail trail' : List String)
    {context context' before before' : List Commitment} (hcontext : asked context = asked context')
    (hbefore : asked before = asked before') :
    (scenesBeside trail context before positive rs).map Scene.asked =
      (scenesBeside trail' context' before' positive' rs').map Scene.asked := by
  induction h generalizing before before' with
  | nil => rfl
  | @cons r r' rs rs' hr hrs ih =>
      have hbeside : asked (context ++ (before ++ forcedAll positive rs)) =
          asked (context' ++ (before' ++ forcedAll positive' rs')) := by
        simp only [Commitment.asked_append, hcontext, hbefore, asked_forcedAll hrs]
      have hbehind : asked (before ++ r.forced positive) =
          asked (before' ++ r'.forced positive') := by
        rw [Commitment.asked_append, Commitment.asked_append, hbefore, hr.forced]
      rw [scenesBeside, scenesBeside, List.map_append, List.map_append,
        hr.scenes trail trail' hbeside, ih hbehind]

theorem asked_scenesApart (trail trail' : List String) {context context' : List Commitment}
    (hcontext : asked context = asked context') :
    (scenesApart trail context positive rs).map Scene.asked =
      (scenesApart trail' context' positive' rs').map Scene.asked := by
  induction h with
  | nil => rfl
  | cons hr _ ih =>
      rw [scenesApart, scenesApart, List.map_append, List.map_append,
        hr.scenes trail trail' hcontext, ih]

end Operands

/-- Rules ask for the same if their operators pass the demand on alike, to operands that ask for
the same. -/
theorem AsksLike.node {k k' : Head} (hl : k.operator.isLogical = true)
    (hl' : k'.operator.isLogical = true)
    (hconj : isConjunctive (some k.operator) positive =
      isConjunctive (some k'.operator) positive')
    (hcs : List.Forall₂ (fun r r' => AsksLike r (positive != decide (k.operator = .not)) r'
      (positive' != decide (k'.operator = .not))) rs rs') :
    AsksLike (.node k rs) positive (.node k' rs') positive' where
  forced := by
    rw [Rule.forced, Rule.forced, if_pos hl, if_pos hl', hconj]
    split_ifs
    · exact asked_forcedAll hcs
    · rfl
  scenes trail trail' _ _ hcontext := by
    rw [Rule.scenes, Rule.scenes, if_pos hl, if_pos hl', hconj]
    split_ifs
    · exact asked_scenesBeside hcs _ _ hcontext rfl
    · exact asked_scenesApart hcs _ _ hcontext

/-- Comparisons ask for the same if their constraints are the same. -/
theorem AsksLike.comparison {k k' : Head} (hl : ¬ k.operator.isLogical = true)
    (hl' : ¬ k'.operator.isLogical = true) (cs cs' : List Rule)
    (hsame : Commitment.constraint? ⟨k, positive⟩ = Commitment.constraint? ⟨k', positive'⟩) :
    AsksLike (.node k cs) positive (.node k' cs') positive' where
  forced := by
    rw [Rule.forced, Rule.forced, if_neg hl, if_neg hl']
    exact congrArg (fun c => [c]) hsame
  scenes trail trail' _ _ hcontext := by
    rw [Rule.scenes, Rule.scenes, if_neg hl, if_neg hl']
    exact congrArg (fun c => [c]) (Prod.ext hsame hcontext)

/-- A negation asks for what its operand asks for with the opposite demand. -/
theorem AsksLike.negation {k : Head} (hn : k.operator = .not) {r r' : Rule}
    (h : AsksLike r positive r' (!positive')) :
    AsksLike r positive (.node k [r']) positive' where
  forced := by
    rw [Rule.forced, if_pos (by rw [hn]; rfl), if_pos (by rw [hn]; rfl), forcedAll, forcedAll,
      List.append_nil, h.forced, hn]
    simp
  scenes trail trail' _ _ hcontext := by
    rw [Rule.scenes, if_pos (by rw [hn]; rfl), if_pos (by rw [hn]; rfl), scenesBeside,
      scenesBeside, forcedAll, List.append_nil, List.append_nil, List.append_nil,
      h.scenes trail (trail' ++ [k.id]) hcontext, hn]
    simp

/-- What a comparison is asked for is what the comparison in its place says. -/
theorem constraint?_operatorFor (positive : Bool) (k : Head)
    (hl : ¬ k.operator.isLogical = true) :
    Commitment.constraint? ⟨{ k with operator := operatorFor positive k.operator }, true⟩ =
      Commitment.constraint? ⟨k, positive⟩ := by
  obtain ⟨id, subject, operator, value, clause, confidence, group⟩ := k
  cases positive <;> cases operator <;> first | rfl | exact absurd rfl hl

mutual

/-- A tree that is to take a truth value asks for what its normal form asks for. -/
theorem asksLike_normalForm (positive : Bool) : ∀ r : Rule, AreSound r.walk →
    AsksLike (r.normalForm positive) true r positive
  | .node k cs, hs => by
      rw [normalForm]
      split_ifs with hn
      · have ih := asksLike_normalForms (!positive) cs hs.below
        obtain ⟨c, rfl⟩ := hs.exists_operand hn
        exact .negation hn (List.forall₂_cons.mp ih).1
      · by_cases hl : k.operator.isLogical = true
        · refine .node (by rwa [isLogical_operatorFor]) hl (isConjunctive_operatorFor hl hn _) ?_
          simpa [hn, operatorFor_ne_not hn] using asksLike_normalForms positive cs hs.below
        · exact .comparison (by rwa [isLogical_operatorFor]) hl _ _
            (constraint?_operatorFor positive k hl)

theorem asksLike_normalForms (positive : Bool) : ∀ rs : List Rule, AreSound (walkAll rs) →
    List.Forall₂ (fun r r' => AsksLike r true r' positive) (normalForms positive rs) rs
  | [], _ => .nil
  | r :: rs, hs => .cons (asksLike_normalForm positive r hs.cons.1)
      (asksLike_normalForms positive rs hs.cons.2)

end

mutual

/-- What a tree asks for does not depend on the names of its rules. -/
theorem asksLike_anonymous (positive : Bool) : ∀ r : Rule, AsksLike r.anonymous positive r positive
  | .node k cs => by
      rw [anonymous]
      by_cases hl : k.operator.isLogical = true
      · exact .node hl hl rfl (asksLike_anonymousAll _ cs)
      · exact .comparison (k := { k with id := "" }) hl hl _ _ rfl

theorem asksLike_anonymousAll (positive : Bool) : ∀ rs : List Rule,
    List.Forall₂ (fun r r' => AsksLike r positive r' positive) (anonymousAll rs) rs
  | [] => .nil
  | r :: rs => .cons (asksLike_anonymous positive r) (asksLike_anonymousAll positive rs)

end

theorem AsksLike.symm {r r' : Rule} (h : AsksLike r positive r' positive') :
    AsksLike r' positive' r positive :=
  ⟨h.forced.symm, fun trail trail' _ _ hcontext => (h.scenes trail' trail hcontext.symm).symm⟩

theorem AsksLike.trans {r t u : Rule} {b c d : Bool} (h : AsksLike r b t c)
    (h' : AsksLike t c u d) : AsksLike r b u d :=
  ⟨h.forced.trans h'.forced, fun trail trail' _ _ hcontext =>
    (h.scenes trail [] rfl).trans (h'.scenes [] trail' hcontext)⟩

/-- A tree asks for what any tree asks for that is its normal form but for the names of rules. -/
theorem asksLike_of_anonymous {t u : Rule} (ht : AreSound t.walk)
    (hu : u.anonymous = (t.normalForm true).anonymous) : AsksLike u true t true :=
  (asksLike_anonymous true u).symm.trans
    (hu ▸ (asksLike_anonymous true (t.normalForm true)).trans (asksLike_normalForm true t ht))

end Rule

end Asking

/-- The condition of the leaf of a path and those of its context. -/
def Path.conditions (x : Path) : Except Fault (Condition × List Condition) := do
  let c ← x.leaf.condition
  let ds ← x.context.mapM Literal.condition
  return (c, ds)

namespace PolicyGraph
open Commitment (asked)

/-- The conditions of every path of a policy. -/
def pathConditions (g : PolicyGraph) (policy : Name) :
    Except Fault (List (Condition × List Condition)) :=
  (g.paths policy).bind fun ps => ps.mapM Path.conditions

/-- The conditions that a policy requires. -/
def requiredConditions (g : PolicyGraph) (policy : Name) : Except Fault (List Condition) :=
  (g.requirements policy).bind fun ls => ls.mapM Literal.condition

/-- A constraint with others beside it, as conditions. -/
def conditionsOf (x : Constraint × List Constraint) : Condition × List Condition :=
  (.ofConstraint x.1, x.2.map .ofConstraint)

variable {cfg cfg' : Settings} {g g' : PolicyGraph} {p p' : Plan} {policy policy' : String}

section Conditions

/-- Placed commitments ask for constraints. -/
theorem exists_asked (hp : p.IsSound) {cs : List Commitment}
    (hcs : ∀ c ∈ cs, c.IsPlaced p policy) : ∃ ks : List Constraint, asked cs = ks.map some := by
  obtain ⟨ks, hks⟩ := Attempt.exists_forall₂ fun c hc => (hcs c hc).exists_constraint hp
  exact ⟨ks, (Attempt.map_eq_map_of_forall₂ (hks.imp fun _ _ hk => hk.1.symm)).symm⟩

/-- So do the scenes of a policy. -/
theorem exists_asked_scenesOf (hp : p.IsSound) {d : Document} (hd : d ∈ p.documents) :
    ∃ xs : List (Constraint × List Constraint),
      (p.scenesOf d.policy).map Scene.asked = xs.map fun x => (some x.1, x.2.map some) := by
  have hall : ∀ s ∈ p.scenesOf d.policy, ∃ x : Constraint × List Constraint,
      (some x.1, x.2.map some) = s.asked := fun s hs => by
    obtain ⟨hleaf, hcontext⟩ := Plan.isPlaced_of_mem_scenesOf hp hd hs
    obtain ⟨k, hk, -⟩ := hleaf.exists_constraint hp
    obtain ⟨ks, hks⟩ := exists_asked hp fun c hc => (hcontext c hc).1
    exact ⟨(k, ks), Prod.ext hk.symm hks.symm⟩
  obtain ⟨xs, hxs⟩ := Attempt.exists_forall₂ hall
  exact ⟨xs, (Attempt.map_eq_map_of_forall₂ hxs).symm⟩

/-- Lists with the same images have them place by place. -/
theorem forall₂_of_map_eq_map {α β γ : Type} {f : α → γ} {k : β → γ} {xs : List α} {ys : List β}
    (h : xs.map f = ys.map k) : List.Forall₂ (fun x y => f x = k y) xs ys := by
  rwa [← List.forall₂_eq_eq_eq, List.forall₂_map_left_iff, List.forall₂_map_right_iff] at h

/-- The literals of commitments have the conditions that the commitments ask for. -/
theorem mapM_condition {cs : List Commitment} {ks : List Constraint} (h : asked cs = ks.map some) :
    (cs.map (Commitment.literal cfg policy)).mapM Literal.condition =
      .ok (ks.map .ofConstraint) := by
  rw [Attempt.mapM_eq_ok, List.forall₂_map_left_iff, List.forall₂_map_right_iff]
  exact (forall₂_of_map_eq_map h).imp fun _ _ hk => Commitment.condition_literal cfg policy hk

/-- The paths of scenes have the conditions that the scenes ask for. -/
theorem mapM_conditions {ss : List Scene} {xs : List (Constraint × List Constraint)}
    (h : ss.map Scene.asked = xs.map fun x => (some x.1, x.2.map some)) :
    (ss.map (Scene.path cfg policy)).mapM Path.conditions = .ok (xs.map conditionsOf) := by
  rw [Attempt.mapM_eq_ok, List.forall₂_map_left_iff, List.forall₂_map_right_iff]
  refine (forall₂_of_map_eq_map h).imp fun s x hx => ?_
  obtain ⟨hleaf, hcontext⟩ := Prod.mk.inj hx
  rw [Path.conditions, Scene.path, Commitment.condition_literal cfg policy hleaf,
    Attempt.ok_bind, mapM_condition hcontext]
  rfl

/-- The check of a policy only looks at what its scenes ask for. -/
theorem IsDrawnFrom.precheck_iff (h : g.IsDrawnFrom cfg p) {d : Document} (hd : d ∈ p.documents)
    {xs : List (Constraint × List Constraint)}
    (hxs : (p.scenesOf d.policy).map Scene.asked = xs.map fun x => (some x.1, x.2.map some)) :
    g.precheck (.str d.policy) = .ok () ↔ ∀ x ∈ xs, ∀ l ∈ x.2, x.1.jointly l ≠ some false := by
  constructor
  · intro hok x hx l hl hno
    obtain ⟨s, hs, hasked⟩ := List.mem_map.mp (hxs ▸ List.mem_map_of_mem hx)
    obtain ⟨hleaf, hcontext⟩ := Prod.mk.inj hasked
    obtain ⟨c, hc, hcl⟩ := List.mem_map.mp (hcontext ▸ List.mem_map_of_mem hl :
      some l ∈ asked s.context)
    rcases h.precheck_cases hd with ⟨-, hall⟩ | ⟨_, _, _, _, _, _, _, _, _, _, _, herror⟩
    · exact hall s hs c hc ⟨_, _, hleaf, hcl, hno⟩
    · rw [hok] at herror
      cases herror
  · intro hall
    rcases h.precheck_cases hd with ⟨hok, -⟩ | ⟨s, hs, c, hc, ⟨k, l, hk, hl, hno⟩, -⟩
    · exact hok
    · obtain ⟨x, hx, hasked⟩ := List.mem_map.mp (hxs ▸ List.mem_map_of_mem hs)
      obtain ⟨hleaf, hcontext⟩ := Prod.mk.inj hasked
      obtain rfl := Option.some.inj (hleaf.trans hk)
      have hmem : some l ∈ x.2.map some := hcontext ▸ List.mem_map.mpr ⟨c, hc, hl⟩
      exact absurd hno (hall x hx l (by simpa using hmem))

end Conditions

section Policies

/-- Two policies of one tree each that ask for the same force the same constraints. -/
theorem asked_forcedOf {t u : Rule} (ht : p.rootsOf policy = [t]) (hu : p'.rootsOf policy' = [u])
    (h : u.AsksLike true t true) : asked (p'.forcedOf policy') = asked (p.forcedOf policy) := by
  rw [Plan.forcedOf, Plan.forcedOf, ht, hu]
  exact Rule.asked_forcedAll (.cons h .nil)

theorem asked_scenesOf {t u : Rule} (ht : p.rootsOf policy = [t]) (hu : p'.rootsOf policy' = [u])
    (h : u.AsksLike true t true) :
    (p'.scenesOf policy').map Scene.asked = (p.scenesOf policy).map Scene.asked := by
  rw [Plan.scenesOf, Plan.scenesOf, ht, hu]
  exact Rule.asked_scenesBeside (.cons h .nil) [] [] rfl rfl

/-- A policy whose only rule is the normal form of the only rule of another one, but for the names
of the rules: the paths of both have the same conditions, each with the same ones beside it, both
require the same conditions, and they pass the check together. -/
theorem conditions_normalForm {s s' : RuleSet} (hs : s.validate cfg = .ok s)
    (hg : (s.build cfg).outcome = .ok g) (hs' : s'.validate cfg' = .ok s')
    (hg' : (s'.build cfg').outcome = .ok g') (hpolicy : g.IsInternal policy)
    (hpolicy' : g'.IsInternal policy') {t u : Rule}
    (ht : s.rules.filter (s.assigns policy) = [t])
    (hu : s'.rules.filter (s'.assigns policy') = [u])
    (hform : u.anonymous = (t.normalForm true).anonymous) :
    ∃ (xs : List (Constraint × List Constraint)) (ks : List Constraint),
      g.pathConditions (.str policy) = .ok (xs.map conditionsOf) ∧
      g'.pathConditions (.str policy') = .ok (xs.map conditionsOf) ∧
      g.requiredConditions (.str policy) = .ok (ks.map .ofConstraint) ∧
      g'.requiredConditions (.str policy') = .ok (ks.map .ofConstraint) ∧
      (g.precheck (.str policy) = .ok () ↔ g'.precheck (.str policy') = .ok ()) := by
  obtain ⟨p, hp, h⟩ := isDrawnFrom_of_build hs hg
  obtain ⟨p', hp', h'⟩ := isDrawnFrom_of_build hs' hg'
  rw [← Plan.rootsOf_eq (RuleSet.isAccepted_of_validate hs).1 (RuleSet.checkedPlan_spec hp).1] at ht
  rw [← Plan.rootsOf_eq (RuleSet.isAccepted_of_validate hs').1
    (RuleSet.checkedPlan_spec hp').1] at hu
  obtain ⟨d, hd, rfl⟩ := List.mem_map.mp (h.isInternal_iff.mp hpolicy)
  obtain ⟨d', hd', rfl⟩ := List.mem_map.mp (h'.isInternal_iff.mp hpolicy')
  have hsound : Rule.AreSound t.walk := fun r hr =>
    h.sound.rules (d.policy, r) (Plan.mem_placed.mpr ⟨d, hd, rfl, t, by simp [ht], hr⟩)
  have hlike := Rule.asksLike_of_anonymous hsound hform
  obtain ⟨xs, hxs⟩ := exists_asked_scenesOf h.sound hd
  obtain ⟨ks, hks⟩ := exists_asked h.sound fun c hc => Plan.isPlaced_of_mem_forcedOf hd hc
  have hxs' := (asked_scenesOf ht hu hlike).trans hxs
  refine ⟨xs, ks, ?_, ?_, ?_, ?_, (h.precheck_iff hd hxs).trans (h'.precheck_iff hd' hxs').symm⟩
  · rw [pathConditions, h.hasTreesOf.paths_eq hd]
    exact mapM_conditions hxs
  · rw [pathConditions, h'.hasTreesOf.paths_eq hd']
    exact mapM_conditions hxs'
  · rw [requiredConditions, h.hasTreesOf.requirements_eq hd]
    exact mapM_condition hks
  · rw [requiredConditions, h'.hasTreesOf.requirements_eq hd']
    exact mapM_condition ((asked_forcedOf ht hu hlike).trans hks)

end Policies

section Permits

/-- The permit as a conjunction, for those who are of age and not banned. -/
def grant : RuleSet where
  rules := [
    .node { id := "u", subject := "x", operator := .and, clause := "c",
            confidence := some Number.one } [
      .node { id := "v", subject := "age", operator := .gte, value := some (.number (.finite 18)),
              clause := "c", confidence := some Number.one } [],
      .node (statusHead "w" .neq "banned") []]]
  documents := [{ policy := "grant", clauses := [{ id := "c" }] }]

def grantPlan : Plan := ⟨grant.documents, grant.rules.map ("grant", ·)⟩

/-- The conditions that the permit and the grant require. -/
def grantConstraints : List Constraint :=
  [⟨"age", .gte, .number (.finite 18)⟩, ⟨"status", .neq, .text "banned"⟩]

/-- To be neither under age nor banned is to be of age and not banned. -/
theorem conditions_normalForm_permit : ∃ (g g' : PolicyGraph)
    (xs : List (Constraint × List Constraint)), (permit.build .standard).outcome = .ok g ∧
      (grant.build .standard).outcome = .ok g' ∧
      g.pathConditions (.str "permit") = .ok (xs.map conditionsOf) ∧
      g'.pathConditions (.str "grant") = .ok (xs.map conditionsOf) ∧
      g.requiredConditions (.str "permit") = .ok (grantConstraints.map .ofConstraint) ∧
      g'.requiredConditions (.str "grant") = .ok (grantConstraints.map .ofConstraint) ∧
      g'.precheck (.str "grant") = .ok () := by
  obtain ⟨g, hs, hg, h⟩ := exists_permit
  obtain ⟨g', hs', hg', h'⟩ : ∃ g' : PolicyGraph, grant.validate .standard = .ok grant ∧
      (grant.build .standard).outcome = .ok g' ∧ g'.IsDrawnFrom .standard grantPlan :=
    exists_build (by decide +kernel) rfl (by decide +kernel)
  have hpermit := h.isInternal_iff.mpr (List.mem_cons_self (a := "permit"))
  have hgrant := h'.isInternal_iff.mpr (List.mem_cons_self (a := "grant"))
  obtain ⟨xs, ks, hxs, hxs', hks, hks', hcheck⟩ :=
    conditions_normalForm hs hg hs' hg' hpermit hgrant rfl rfl rfl
  have hrequired : g'.requiredConditions (.str "grant") =
      .ok (grantConstraints.map .ofConstraint) := by
    rw [requiredConditions, h'.hasTreesOf.requirements_eq (p := grantPlan) List.mem_cons_self]
    rfl
  have hsame := Except.ok.inj (hks'.symm.trans hrequired)
  exact ⟨g, g', xs, hg, hg', hxs, hxs', hsame ▸ hks, hrequired,
    hcheck.mp (h.precheck_permit hpermit)⟩

end Permits

end PolicyGraph

end Eligibility
