import Eligibility.Verdict.Evaluation
/-!
# Queries and simulations

**Queries.**  A query names a policy and gives inputs; it is checked before the
policy is evaluated.

**Simulations.**  A simulation evaluates every policy of a graph against the same
inputs, in the order of the graph, and ends at the first fault.

**Sweeps.**  A sweep simulates once for each value of one variable.  It sets the
variable in a copy of the inputs, the same one for all values, that lies on a desk
beside the mappings of others.

**Functions.**
* `Query.read`, `PolicyGraph.ask`: raw queries and their verdicts.
* `PolicyGraph.evaluate`: the verdict on a named policy.
* `PolicyGraph.simulate`, `PolicyGraph.sweep`: verdicts on all policies.
* `PolicyGraph.sweepOn`: a sweep, and what it leaves on the desk.
-/

namespace Eligibility
open Schema

/-- A policy and the inputs to evaluate it against. -/
structure Query where
  policy : String
  inputs : Inputs

/-- A query for a policy, with inputs by their names. -/
def Query.check (policy : Json) (inputs : Entries Json) : Checked Query :=
  (((nonEmptyText policy).under (.key "policy_id")).map Query.mk).ap
    ((Schema.inputEntries inputs).under (.key "user_inputs"))

/-- A query given as a record. -/
def Query.read : Reader Query :=
  Schema.record "EligibilityQuery" fun fs =>
    ((required "policy_id" nonEmptyText fs).map Query.mk).ap
      (optional "user_inputs" [] Schema.inputs fs)

namespace PolicyGraph

section Queries

/-- The verdict on a query. -/
def answer (cfg : Settings) (g : PolicyGraph) (q : Query) : Logged Verdict :=
  g.run cfg q.inputs (.str q.policy)

/-- The verdict on a query, unless it has flaws. -/
def answerChecked (cfg : Settings) (g : PolicyGraph) : Checked Query → Logged Verdict
  | .flawed fs => ⟨[], .error (.malformedQuery fs)⟩
  | .ok q => g.answer cfg q

/-- The verdict on a raw query. -/
def ask (cfg : Settings) (g : PolicyGraph) (query : Json) : Logged Verdict :=
  g.answerChecked cfg (Query.read query)

/-- The verdict on a policy, against inputs given as JSON. -/
def evaluate (cfg : Settings) (g : PolicyGraph) (policy inputs : Json) : Logged Verdict :=
  match Fault.mappingOrEmpty inputs with
  | .error f => ⟨[], .error f⟩
  | .ok es => g.answerChecked cfg (Query.check policy es)

end Queries

section Simulations

/-- Verdicts by policy; a policy that comes again is left out. -/
def byPolicy (vs : List Verdict) : List (String × Verdict) :=
  vs.foldl (fun acc v => if acc.any (·.1 = v.policy) then acc else acc ++ [(v.policy, v)]) []

/-- How many verdicts have each status, where there are any. -/
def statusCounts (vs : List Verdict) : List (String × Json) :=
  (Status.all.map fun s => (s.name, (vs.filter fun v => v.status = s).length)).filterMap fun c =>
    if c.2 = 0 then none else some (c.1, Json.nat c.2)

/-- The event of a simulation. -/
def simulationEvent (results : List (String × Verdict)) : Event :=
  ⟨.info, "simulation_completed",
    ("policies", Json.nat results.length) :: statusCounts (results.map (·.2))⟩

/-- The verdicts on policies in order, ending at the first fault. -/
def runAll (cfg : Settings) (g : PolicyGraph) (inputs : Inputs) : List Name → Logged (List Verdict)
  | [] => Logged.pure []
  | p :: r => (g.run cfg inputs p).bind fun v =>
      (runAll cfg g inputs r).bind fun vs => Logged.pure (v :: vs)

/-- The inputs of a simulation, checked. -/
def checkInputs (es : Entries Json) : Except Fault Inputs :=
  match Schema.inputEntries es with
  | .ok inputs => .ok inputs
  | .flawed flaws => .error (.malformedInputs flaws)

/-- The verdicts on all policies. -/
def simulate (cfg : Settings) (g : PolicyGraph) (inputs : Entries Json) :
    Logged (List (String × Verdict)) :=
  (Logged.ofExcept (checkInputs inputs)).bind fun inputs =>
    (runAll cfg g inputs (g.policyIds false)).bind fun vs =>
      (Logged.log (simulationEvent (byPolicy vs))).bind fun _ => Logged.pure (byPolicy vs)

/-- The verdicts on all policies, against inputs given as JSON. -/
def simulateJson (cfg : Settings) (g : PolicyGraph) (inputs : Json) :
    Logged (List (String × Verdict)) :=
  (Logged.ofExcept (Fault.mapping inputs)).bind (g.simulate cfg)

end Simulations

section Sweeps

/-- Mappings in use, each at a place of its own. -/
abbrev Desk := List (Entries Json)

/-- The mapping at a place of a desk. -/
def mappingAt (d : Desk) (place : Nat) : Entries Json := d.getD place []

/-- A value of the variable with the verdicts on all policies for it. -/
abbrev SweepRow := Json × List (String × Verdict)

/-- A desk with the variable, which has to be a name, set in the mapping at a place. -/
def vary (d : Desk) (place : Nat) (subject : Name) (v : Json) : Except Fault Desk :=
  if Name.isUsable subject then .ok (d.set place ((mappingAt d place).put subject v))
  else .error .wrongType

/-- The verdicts on all policies for each value of one variable, which is set in the mapping at a
place, and the desk as it is left. -/
def sweepAt (cfg : Settings) (g : PolicyGraph) (place : Nat) (subject : Name) :
    List Json → Desk → Logged (List SweepRow) × Desk
  | [], d => (Logged.pure [], d)
  | v :: r, d =>
      match vary d place subject v with
      | .error f => (Logged.ofExcept (.error f), d)
      | .ok varied =>
          let results := g.simulate cfg (mappingAt varied place)
          match results.outcome with
          | .error f => (⟨results.events, .error f⟩, varied)
          | .ok vs =>
              let rest := sweepAt cfg g place subject r varied
              (results.bind fun _ => rest.1.bind fun rows => Logged.pure ((v, vs) :: rows), rest.2)

/-- The verdicts on all policies for each value of one variable, which is set in a copy of the
mapping at a place, and the desk as it is left. -/
def sweepOn (cfg : Settings) (g : PolicyGraph) (place : Nat) (subject : Name) (values : List Json)
    (d : Desk) : Logged (List SweepRow) × Desk :=
  g.sweepAt cfg d.length subject values (d ++ [mappingAt d place])

/-- The verdicts on all policies for each value of one variable. -/
def sweep (cfg : Settings) (g : PolicyGraph) (inputs : Entries Json) (subject : Name)
    (values : List Json) : Logged (List SweepRow) :=
  (g.sweepOn cfg 0 subject values [inputs]).1

end Sweeps

end PolicyGraph
end Eligibility
