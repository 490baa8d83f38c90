import Eligibility.Text.LetterCase
/-!
# Environment variables

**Content.**  Variables in the order of their first appearance, each with its last
text, or with none where it is only named.

**Names.**  A setting is found by its name in either case; of several spellings
the last one counts.

**Results.**
* `valueSpelled?_assign_same`: a variable that was set is found.
-/

namespace Eligibility

/-- Variables with their texts, or with none where they are only named. -/
abbrev Variables := List (String × Option String)

namespace Variables

/-- Variables with one of them set: in place if it is there, else at the end. -/
def assign (name : String) (value : Option String) : Variables → Variables
  | [] => [(name, value)]
  | (n, v) :: r => if n = name then (name, value) :: r else (n, v) :: assign name value r

/-- The text of a variable, spelled exactly. -/
def valueSpelled? (vars : Variables) (name : String) : Option String := (vars.lookup name).join

/-- The text of the last variable whose name in lower case is given. -/
def value? (vars : Variables) (name : String) : Option String :=
  ((vars.reverse.find? fun v => Text.lower v.1 = name).map (·.2)).join

theorem valueSpelled?_assign_same (name : String) (value : Option String) (vars : Variables) :
    (assign name value vars).valueSpelled? name = value := by
  induction vars with
  | nil => simp [assign, valueSpelled?]
  | cons v r ih =>
      obtain ⟨n, t⟩ := v
      by_cases h : n = name
      · simp [assign, valueSpelled?, h]
      · have h' : (name == n) = false := by simpa using fun e => h e.symm
        rw [valueSpelled?] at ih ⊢
        rw [assign, if_neg h, List.lookup_cons, h']
        exact ih

end Variables
end Eligibility
