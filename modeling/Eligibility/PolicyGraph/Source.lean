import Eligibility.PolicyGraph.Compilation
import Eligibility.PolicyGraph.Record
/-!
# Graphs from payloads

**Rule.**  A payload with both `nodes` and `edges` is a serialized graph; any other
one is a rule set, which is validated and compiled.

**Functions.**
* `PolicyGraph.load`: the graph of a payload, with its log events.
-/

namespace Eligibility
namespace PolicyGraph

/-- The graph of a payload, with its log events. -/
def load (cfg : Settings) (payload : Json) : Logged PolicyGraph :=
  match isRecord payload with
  | .error f => ⟨[], .error f⟩
  | .ok true => Logged.ofExcept (read payload)
  | .ok false => RuleSet.compile cfg payload

end PolicyGraph
end Eligibility
