import Eligibility.Event
import Eligibility.Verdict
import Eligibility.Verdict.Consistency
import Eligibility.Verdict.Outcome
/-!
# Evaluating policies

**Conditions.**  A comparison is undetermined while its variable is not among the
inputs, fails when the input is of another kind, and is decided by the input
otherwise.  A rule combines its operands; each evaluated node leaves a finding,
operands before the node they belong to.

**Policies.**  A policy is the conjunction of its rules and of the policies it
requires.  A policy that contradicts itself is refused, and so is one that
requires itself over others.  A policy that is only mentioned stays undetermined.

**Status.**  An undetermined policy is conditional on what is missing; one that
holds is eligible or conditional as far as its confidence reaches.

**Functions.**
* `PolicyGraph.evaluateRule`, `PolicyGraph.evaluatePolicy`: outcomes with findings.
* `PolicyGraph.verdict`: the verdict on a policy.
-/

namespace Eligibility
open Schema

/-- The outcome of a node, what was found on the way, and the inputs that were missing. -/
structure Evaluated where
  outcome : Outcome
  findings : List Finding
  missing : TextSet := .empty

/-- The inputs of an applicant by variable. -/
abbrev Inputs := List (String × Json)

namespace Evaluated

/-- The findings of several evaluations in order. -/
def findingsOf (es : List Evaluated) : List Finding := es.flatMap Evaluated.findings

/-- The inputs that were missing in any of several evaluations. -/
def missingOf (es : List Evaluated) : TextSet :=
  (es.map Evaluated.missing).foldr TextSet.union .empty

end Evaluated

section Wording

/-- How many outcomes have a truth value. -/
def countOf (v : Bool) (os : List Outcome) : String :=
  RuleFault.count (os.filter fun o => o.value == some v).length

/-- The explanation of a combination of outcomes. -/
def combinationText (operator : String) (os : List Outcome) (o : Outcome) : String :=
  let all := RuleFault.count os.length
  if operator = Operator.not.name then
    match o.value with
    | none => "NOT of an undetermined condition is undetermined"
    | some v =>
        "NOT inverts the condition; result is " ++ String.ofList (Operand.flagText v)
  else
    match o.value with
    | none =>
        operator ++ " of " ++ all ++ " conditions is pending input(s): " ++
          String.intercalate ", " o.pending.members
    | some v =>
        if operator = Operator.and.name then
          if v then "All " ++ all ++ " conditions of AND are satisfied"
          else countOf false os ++ " of " ++ all ++ " conditions of AND are not satisfied"
        else if v then countOf true os ++ " of " ++ all ++ " alternatives of OR are satisfied"
        else "None of the " ++ all ++ " alternatives of OR are satisfied"

end Wording

section Leaves

/-- A finding about a node, or the flaws in what the graph says of it. -/
def findingOn (n : Node) (rule clause : Json) (operator : String) (consulted : Inputs)
    (o : Outcome) (explanation : String) (pending : List Json) : Except Fault Finding :=
  Fault.ofChecked (Finding.make n.id rule clause operator consulted (o.value == some true)
    o.confidence explanation pending)

/-- A finding about a condition. -/
def findingOnRule (n : Node) (operator : String) (consulted : Inputs) (o : Outcome)
    (explanation : String) (pending : List Json) : Except Fault Finding :=
  findingOn n n.rule n.citedClause operator consulted o explanation pending

/-- The texts of a set as JSON. -/
def pendingNames (o : Outcome) : List Json := o.pending.members.map Json.str

/-- The set of a name, if it is a text. -/
def nameSet : Name → TextSet
  | .str s => TextSet.singleton s
  | _ => .empty

/-- The input for a variable, if it is there. -/
def inputFor (inputs : Inputs) : Name → Option (String × Json)
  | .str s => (Json.lookup s inputs).map fun v => (s, v)
  | _ => none

/-- A comparison whose variable is not among the inputs. -/
def evaluateMissing (n : Node) (o : Operator) (text : String) : Except Fault Evaluated := do
  let outcome : Outcome := ⟨none, n.confidence, nameSet n.subject⟩
  let f ← findingOnRule n o.name [] outcome
    ("Missing input '" ++ n.subject.display ++ "': requirement '" ++ text ++ "' not demonstrated")
    [n.subject]
  return ⟨outcome, [f], nameSet n.subject⟩

/-- A comparison that the input decides, with what is said about it. -/
def evaluateGiven (n : Node) (o : Operator) (input : String × Json) (holds : Bool)
    (explanation : String) : Except Fault Evaluated := do
  let outcome : Outcome := ⟨some holds, n.confidence, .empty⟩
  let f ← findingOnRule n o.name [input] outcome explanation []
  return ⟨outcome, [f], .empty⟩

/-- A comparison against an input. -/
def evaluateSupplied (n : Node) (o : Operator) (v : Operand) (text : String)
    (input : String × Json) : Except Fault Evaluated :=
  match (Constraint.mk input.1 o v).satisfiedBy input.2 with
  | .answer true =>
      evaluateGiven n o input true ("'" ++ text ++ "' satisfied by supplied " ++ input.1)
  | .answer false =>
      evaluateGiven n o input false ("'" ++ text ++ "' not satisfied by supplied " ++ input.1)
  | .mismatch m =>
      evaluateGiven n o input false
        ("Input '" ++ input.1 ++ "' cannot be compared with '" ++ text ++ "': " ++ m.message)
  | .outOfRange => .error .outOfRange
  | .noInterval => .error .noAttribute

/-- A comparison. -/
def evaluateLeaf (inputs : Inputs) (n : Node) : Except Fault Evaluated := do
  let c ← (Literal.mk n true).condition
  let text ← c.describe
  match c.operator, c.value with
  | some o, some v =>
      match inputFor inputs n.subject with
      | some input => evaluateSupplied n o v text input
      | none => evaluateMissing n o text
  | _, _ => .error .noAttribute

end Leaves

namespace PolicyGraph

section Rules

/-- The combination of outcomes by an operator; a negation was already carried out at its edge. -/
def combine (o : Option Operator) (os : List Outcome) : Except Fault Outcome :=
  match o, os with
  | some .and, [] => .error (.badValue .emptyMinimum)
  | some .or, [] => .error (.badValue .emptyMaximum)
  | _, [] => .error .noItem
  | some .and, x :: r => .ok (Outcome.conjoin x r)
  | some .or, x :: r => .ok (Outcome.disjoin x r)
  | _, x :: _ => .ok x

/-- A rule from the outcomes of its operands. -/
def concludeRule (n : Node) (es : List (Evaluated × Bool)) : Except Fault Evaluated := do
  let o ← n.operator?
  let os := es.map fun e => e.1.outcome.negateIf e.2
  let outcome ← combine o os
  match o with
  | none => .error .noAttribute
  | some o =>
      let f ← findingOnRule n o.name [] outcome (combinationText o.name os outcome)
        (pendingNames outcome)
      let parts := es.map (·.1)
      return ⟨outcome, Evaluated.findingsOf parts ++ [f], Evaluated.missingOf parts⟩

/-- A rule against inputs, within a depth. -/
def evaluateRule (g : PolicyGraph) (inputs : Inputs) : Nat → Node → Except Fault Evaluated
  | 0, _ => .error .unbounded
  | fuel + 1, n =>
      if n.isLeaf then evaluateLeaf inputs n
      else do
        let bs ← g.ruleChildren n.id
        let es ← bs.mapM fun b =>
          (evaluateRule g inputs fuel b.node).map fun e => (e, b.edge.isNegated)
        concludeRule n es

end Rules

section Policies

/-- The first clause of a policy, or null. -/
def firstClause (g : PolicyGraph) (policy : Name) : Except Fault Json :=
  (g.clausesOf policy).map fun cs => cs.head?.getD .null

/-- The names of policies as texts, if all of them are. -/
def policyTexts (ns : List Name) : Except Fault (List String) :=
  match Name.texts? ns with
  | some ss => .ok ss
  | none => .error .wrongType

/-- The fault of a policy that is reached again while the policies of a stack are evaluated. -/
def circularFault (g : PolicyGraph) (stack : List Name) (policy : Name) : Except Fault Fault := do
  let cycle := (stack.dropWhile fun p => !p.alike policy) ++ [policy]
  let parts ← cycle.mapM g.clausesOf
  if !parts.flatten.all Name.isUsable then throw .wrongType
  let clauses ← Fault.sorted (Json.distinct parts.flatten)
  let texts ← policyTexts cycle
  return .circularRequirement texts clauses

/-- A required policy that is only mentioned; the clause is that of the requiring policy. -/
def evaluateExternal (g : PolicyGraph) (n : Node) (requiredBy : Name) : Except Fault Evaluated := do
  if !Name.isUsable n.policy then throw .wrongType
  let waits := "policy:" ++ n.policy.display
  let outcome : Outcome := ⟨none, Number.one, TextSet.singleton waits⟩
  let clause ← g.firstClause requiredBy
  let f ← findingOn n .null clause Operator.and.name [] outcome
    ("Required policy '" ++ n.policy.display ++
      "' is not part of this graph; its eligibility cannot be established")
    (pendingNames outcome)
  return ⟨outcome, [f], .empty⟩

/-- A policy from the outcomes of its rules and of the policies it requires. -/
def concludePolicy (g : PolicyGraph) (n : Node) (es : List Evaluated) : Except Fault Evaluated := do
  let found := Evaluated.findingsOf es
  let missing := Evaluated.missingOf es
  match es with
  | [e] => return e
  | [] =>
      let outcome : Outcome := ⟨some true, Number.one, .empty⟩
      let clause ← g.firstClause n.policy
      let f ← findingOn n .null clause Operator.and.name [] outcome
        ("Policy '" ++ n.policy.display ++ "' has no conditions") []
      return ⟨outcome, [f], .empty⟩
  | e :: r =>
      let os := r.map Evaluated.outcome
      let outcome := Outcome.conjoin e.outcome os
      let clause ← g.firstClause n.policy
      let f ← findingOn n .null clause Operator.and.name [] outcome
        ("Policy '" ++ n.policy.display ++ "': " ++
          combinationText Operator.and.name (e.outcome :: os) outcome)
        (pendingNames outcome)
      return ⟨outcome, found ++ [f], missing⟩

/-- The rules of a policy against inputs. -/
def evaluateRoots (g : PolicyGraph) (inputs : Inputs) (policy : Name) :
    Except Fault (List Evaluated) := do
  let roots ← g.policyRoots policy
  roots.mapM fun b => g.evaluateRule inputs g.depthBound b.node

/-- A policy against inputs, while the policies of a stack are evaluated, within a depth. -/
def evaluatePolicyTo (g : PolicyGraph) (inputs : Inputs) :
    Nat → List Name → Node → Except Fault Evaluated
  | 0, _, _ => .error .unbounded
  | fuel + 1, stack, n => do
      if n.policy.among stack then throw (← g.circularFault stack n.policy)
      g.precheck n.policy
      let own ← g.evaluateRoots inputs n.policy
      let names ← g.requiredPolicies n.policy
      let required ← names.mapM fun name => do
        let m ← g.node (Node.policyId name)
        if m.isExternal then g.evaluateExternal m n.policy
        else evaluatePolicyTo g inputs fuel (stack ++ [n.policy]) m
      g.concludePolicy n (own ++ required)

/-- A policy against inputs. -/
def evaluatePolicy (g : PolicyGraph) (inputs : Inputs) (n : Node) : Except Fault Evaluated :=
  evaluatePolicyTo g inputs (g.nodes.length + 1) [] n

end Policies

section Verdicts

/-- The status of an outcome. -/
def statusOf (cfg : Settings) (o : Outcome) : Status :=
  match o.value with
  | none => .conditional
  | some false => .notEligible
  | some true =>
      if cfg.eligibleConfidence.le o.confidence then .eligible
      else if cfg.conditionalConfidence.le o.confidence then .conditional
      else .notEligible

/-- The warning about an input that was not given. -/
def missingWarning (subject : String) : Warning :=
  ⟨.missingInput, "Input '" ++ subject ++ "' was not supplied", [("variable", .str subject)]⟩

/-- The warnings about confidence. -/
def confidenceWarnings (cfg : Settings) (x : Number) : List Warning :=
  if x.lt cfg.lowConfidenceWarning then
    [⟨.lowConfidence, "Result confidence " ++ String.ofList (x.fixed 2) ++ " is below " ++
      String.ofList (cfg.lowConfidenceWarning.fixed 2), [("confidence", .float x)]⟩]
  else []

/-- The verdict of an evaluation. -/
def conclude (cfg : Settings) (policy : Name) (e : Evaluated) : Except Fault Verdict :=
  let o := e.outcome
  Fault.ofChecked (((Schema.text policy).under (.key "policy_id")).map fun p => {
    policy := p
    status := statusOf cfg o
    trace := Step.enumerate 1 e.findings
    confidence := o.confidence
    requirements := if o.value.isNone then some o.pending.members else none
    warnings := e.missing.members.map missingWarning ++ confidenceWarnings cfg o.confidence })

/-- The node of a policy that is declared in the graph. -/
def declaredPolicy (g : PolicyGraph) (policy : Name) : Except Fault Node :=
  match g.policyNode? policy with
  | none => .error (.unknownPolicy policy)
  | some n => if n.isExternal then .error (.unknownPolicy policy) else .ok n

/-- The verdict on a policy. -/
def verdict (cfg : Settings) (g : PolicyGraph) (inputs : Inputs) (policy : Name) :
    Except Fault Verdict := do
  let n ← g.declaredPolicy policy
  let e ← g.evaluatePolicy inputs n
  conclude cfg policy e

/-- The event of a verdict. -/
def verdictEvent (policy : Name) (v : Verdict) : Event :=
  ⟨.info, "policy_evaluated", [("policy_id", policy), ("status", .str v.status.name),
    ("steps", Json.nat v.trace.length), ("confidence", .float v.confidence)]⟩

/-- The verdict on a policy, with its log event. -/
def run (cfg : Settings) (g : PolicyGraph) (inputs : Inputs) (policy : Name) : Logged Verdict :=
  match g.verdict cfg inputs policy with
  | .error f => ⟨[], .error f⟩
  | .ok v => ⟨[verdictEvent policy v], .ok v⟩

end Verdicts

end PolicyGraph
end Eligibility
