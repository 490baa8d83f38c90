import Eligibility.Fault
/-!
# How deep the rules of a text may lie

**Levels.**  Each parenthesis that a logical word opens is one level.  A text is too
deep when a rule is due behind a parenthesis that is one level too many; a text that
is wrong before that parenthesis is wrong for its own reason.

**Functions.**
* `Rule.tokensAbove?`: how many tokens there are up to the first such parenthesis.
* `Rule.parseWithin`: the rule of a text that is not too deep.
-/

namespace Eligibility
namespace Rule

/-- The most parentheses around a rule of a text from outside. -/
def parenthesisLimit : Nat := 490

/-- How many tokens there are up to the first parenthesis that opens when no more levels are left,
that one included. -/
def tokensAbove? (left count : Nat) : List Token → Option Nat
  | [] => none
  | t :: r =>
      if t.kind = .mark ∧ t.text = ['('] then
        match left with
        | 0 => some (count + 1)
        | left + 1 => tokensAbove? left (count + 1) r
      else if t.kind = .mark ∧ t.text = [')'] then tokensAbove? (left + 1) (count + 1) r
      else tokensAbove? left (count + 1) r

/-- Whether reading comes to a rule below the allowed levels. -/
def isTooDeep (levels : Nat) (d : Defaults) (text : String) : Bool :=
  let cs := text.toList
  match Token.split cs with
  | .error _ => false
  | .ok ts =>
      match tokensAbove? levels 0 ts with
      | none => false
      | some n =>
          match Parser.expression cs.length d (2 * n + 1) d.id (ts.take n) with
          | .error (.refused .noExpression _) => true
          | _ => false

/-- The rule of a text within the allowed levels. -/
def parseWithin (levels : Nat) (d : Defaults) (text : String) : Except Fault Rule :=
  if isTooDeep levels d text then .error .unbounded else (parse d text).mapError Fault.ofParse

end Rule
end Eligibility
