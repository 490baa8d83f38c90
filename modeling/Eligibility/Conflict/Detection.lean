import Eligibility.Conflict.Candidate
import Eligibility.Event
import Eligibility.PolicyGraph.Composition
/-!
# Detecting conflicts

**Scope.**  A candidate is reported only if any two of its policies share a scope;
otherwise it is suppressed and counted.

**Report.**  Conflicts are reported once, the most severe first and equally severe
ones by their identifiers.  The passes run in a fixed order, and a run can be
stopped between two of them.

**Functions.**
* `PolicyGraph.runPass`: the conflicts of one pass.
* `PolicyGraph.detect`: the report of several passes.
-/

namespace Eligibility
open Schema

/-- What a pass found. -/
structure PassResult where
  kind : ConflictKind
  conflicts : List Conflict := []
  suppressed : Nat := 0

namespace Candidate

/-- The texts of names, each once and in rising order. -/
def sortedTexts (ns : List Name) : Except Fault (List Name) := Fault.sorted (Json.distinct ns)

/-- The identifier of the conflict. -/
def conflictId (c : Candidate) : Except Fault String :=
  match Name.texts? c.nodes with
  | some ss => .ok (Conflict.identify c.kind ss)
  | none => .error .wrongType

/-- Names as texts, under the name of a field. -/
def texts (field : String) (ns : List Name) : Checked (List String) :=
  (Schema.list Schema.text (.arr ns)).under (.key field)

/-- The conflict of a candidate. -/
def conflict (g : PolicyGraph) (c : Candidate) : Except Fault Conflict := do
  let id ← c.conflictId
  let clauses ← sortedTexts (c.clauses.filter g.hasClause)
  let policies ← sortedTexts c.policies
  Fault.ofChecked (((texts "involved_clauses" clauses).map fun cs ps =>
    (⟨id, c.kind, c.severity, cs, ps, c.explanation, c.evidence⟩ : Conflict)).ap
      (texts "involved_policies" policies))

/-- Nothing, unless two policies of a candidate do not share a scope. -/
def checkScope (g : PolicyGraph) (c : Candidate) : Except Fault Unit := do
  if !c.policies.all Name.isUsable then throw .wrongType
  let policies ← sortedTexts c.policies
  (PolicyGraph.pairsOf policies).forM fun p => g.checkScope c.entities p.1 p.2

end Candidate

namespace PolicyGraph

section Passes

/-- The event of a candidate that is suppressed. -/
def suppressedEvent (k : ConflictKind) (f : Fault) : Event :=
  let details := (f.report?.map Report.details).getD []
  ⟨.debug, "conflict_suppressed", [("conflict_type", .str k.name),
    ("reason", (Json.lookup "reason" details).getD .null),
    ("policies", (Json.lookup "policies" details).getD .null)]⟩

/-- The event of a pass. -/
def passEvent (r : PassResult) : Event :=
  ⟨.debug, "conflict_pass_completed", [("conflict_type", .str r.kind.name),
    ("found", Json.nat r.conflicts.length), ("suppressed", Json.nat r.suppressed)]⟩

/-- A result with one more candidate, which is reported or suppressed. -/
def receive (g : PolicyGraph) (r : PassResult) (c : Candidate) : Logged PassResult :=
  match c.checkScope g with
  | .error f =>
      if isScopeFault f then
        ⟨[suppressedEvent c.kind f], .ok { r with suppressed := r.suppressed + 1 }⟩
      else ⟨[], .error f⟩
  | .ok _ =>
      ⟨[], (c.conflict g).map fun x => { r with conflicts := r.conflicts ++ [x] }⟩

/-- A result with more candidates. -/
def receiveAll (g : PolicyGraph) (r : PassResult) : List Candidate → Logged PassResult
  | [] => Logged.pure r
  | c :: cs => (g.receive r c).bind fun r => receiveAll g r cs

/-- The conflicts of a pass. -/
def runPass (table : List Impossibility) (g : PolicyGraph) (k : ConflictKind) :
    Logged PassResult :=
  (Logged.ofExcept (g.candidates table k)).bind fun cs =>
    (g.receiveAll { kind := k } cs).bind fun r =>
      (Logged.log (passEvent r)).bind fun _ => Logged.pure r

/-- The results of passes in order, until the run is stopped, and whether it was. -/
def runPasses (table : List Impossibility) (g : PolicyGraph) (stopAfter : Option Nat) :
    List ConflictKind → Logged (List PassResult × Bool)
  | [] => Logged.pure ([], false)
  | k :: ks =>
      if stopAfter = some 0 then Logged.pure ([], true)
      else (g.runPass table k).bind fun r =>
        (runPasses table g (stopAfter.map (· - 1)) ks).bind fun rest =>
          Logged.pure (r :: rest.1, rest.2)

end Passes

section Reports

/-- Conflicts of which the first with an identifier stands. -/
def firstConflicts (seen : List String) : List Conflict → List Conflict
  | [] => []
  | c :: r => if c.id ∈ seen then firstConflicts seen r else c :: firstConflicts (c.id :: seen) r

/-- Whether one conflict is reported no later than another one. -/
def reportedBefore (a b : Conflict) : Bool :=
  decide (b.severity.rank < a.severity.rank) ||
    (decide (a.severity.rank = b.severity.rank) && decide (a.id ≤ b.id))

/-- The report of what passes found. -/
def assemble (rs : List PassResult) (stopped : Bool) : ConflictReport where
  conflicts := (firstConflicts [] (rs.flatMap PassResult.conflicts)).mergeSort reportedBefore
  suppressed := ((rs.map PassResult.suppressed).foldr (· + ·) 0 : Nat)
  passes := ConflictKind.all.filter fun k => rs.any fun r => r.kind = k
  stopped := stopped

/-- The event of a report. -/
def reportEvent (r : ConflictReport) : Event :=
  ⟨.info, "conflict_detection_completed", [("conflicts", Json.nat r.conflicts.length),
    ("suppressed", .int r.suppressed), ("passes", Json.nat r.passes.length),
    ("terminated_early", .bool r.stopped)]⟩

/-- The passes to run, in their fixed order: the named ones, or all. -/
def selectedPasses : Option (List ConflictKind) → List ConflictKind
  | none => ConflictKind.all
  | some ks => ConflictKind.all.filter fun k => ks.contains k

/-- The report of the selected passes over a graph. -/
def detect (table : List Impossibility) (passes : Option (List ConflictKind))
    (stopAfter : Option Nat) (g : PolicyGraph) : Logged ConflictReport :=
  (runPasses table g stopAfter (selectedPasses passes)).bind fun rs =>
    let report := assemble rs.1 rs.2
    (Logged.log (reportEvent report)).bind fun _ => Logged.pure report

/-- The report of the selected passes over the composition of several graphs. -/
def detectAll (table : List Impossibility) (passes : Option (List ConflictKind))
    (stopAfter : Option Nat) (gs : List PolicyGraph) : Logged ConflictReport :=
  (Logged.ofExcept (compose gs)).bind (detect table passes stopAfter)

end Reports

end PolicyGraph
end Eligibility
