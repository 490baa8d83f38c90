import Eligibility.Conflict.Detection
/-!
# Passes at the same time

**Workers.**  Several workers run the selected passes at the same time, each pass on its own: a
pass only reads the graph.  The results are gathered in the order in which the passes end, and the
run can be stopped after any of them but the last.

**Schedules.**  Nothing is known of the order in which passes end, but that each of them ends once.
A schedule stands for such an order.

**Functions.**
* `PolicyGraph.gatherPasses`: the results of passes as they end.
* `PolicyGraph.detectBy`: the report of passes that some number of workers run.
-/

namespace Eligibility

/-- An order in which passes that run at the same time end. -/
structure Schedule where
  order : List ConflictKind → List ConflictKind
  perm : ∀ ks, (order ks).Perm ks

namespace Schedule

/-- The passes end in the order in which they were begun. -/
def listed : Schedule := ⟨id, fun _ => .refl _⟩

instance : Inhabited Schedule := ⟨listed⟩

/-- The passes end in the reverse of the order in which they were begun. -/
def reversed : Schedule := ⟨List.reverse, List.reverse_perm⟩

end Schedule

namespace PolicyGraph

/-- The results of passes in the order in which they end, until the run is stopped while some are
still to come, and whether it was. -/
def gatherPasses (table : List Impossibility) (g : PolicyGraph) (stopAfter : Option Nat) :
    List ConflictKind → Logged (List PassResult × Bool)
  | [] => Logged.pure ([], false)
  | k :: ks =>
      (g.runPass table k).bind fun r =>
        if stopAfter = some 0 ∧ ks ≠ [] then Logged.pure ([r], true)
        else
          (gatherPasses table g (stopAfter.map (· - 1)) ks).bind fun rest =>
            Logged.pure (r :: rest.1, rest.2)

/-- The results of passes that some number of workers run: one after the other, unless there are
several of both. -/
def runBy (workers : Int) (s : Schedule) (table : List Impossibility) (g : PolicyGraph)
    (stopAfter : Option Nat) (ks : List ConflictKind) : Logged (List PassResult × Bool) :=
  if 1 < workers ∧ 1 < ks.length then gatherPasses table g stopAfter (s.order ks)
  else runPasses table g stopAfter ks

/-- The report of the selected passes over a graph, run by some number of workers. -/
def detectBy (workers : Int) (s : Schedule) (table : List Impossibility)
    (passes : Option (List ConflictKind)) (stopAfter : Option Nat) (g : PolicyGraph) :
    Logged ConflictReport :=
  (runBy workers s table g stopAfter (selectedPasses passes)).bind fun rs =>
    let report := assemble rs.1 rs.2
    (Logged.log (reportEvent report)).bind fun _ => Logged.pure report

/-- The report of the selected passes over the composition of several graphs, run by some number of
workers. -/
def detectAllBy (workers : Int) (s : Schedule) (table : List Impossibility)
    (passes : Option (List ConflictKind)) (stopAfter : Option Nat) (gs : List PolicyGraph) :
    Logged ConflictReport :=
  (Logged.ofExcept (compose gs)).bind (detectBy workers s table passes stopAfter)

end PolicyGraph
end Eligibility
