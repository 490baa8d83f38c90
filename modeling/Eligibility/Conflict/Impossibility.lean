import Eligibility.Conflict
import Eligibility.Constraint
/-!
# Conditions that nobody meets together

**Table.**  Each entry gives two constraints on different variables that cannot
plausibly hold for one applicant, and says why.

**Functions.**
* `Impossibility.standard`: the entries that are used unless others are given.
-/

namespace Eligibility

/-- Two constraints that do not hold for one applicant. -/
structure Impossibility where
  first : Constraint
  second : Constraint
  severity : Severity
  reason : String

namespace Impossibility

/-- A comparison with a whole number. -/
def compared (subject : String) (o : Operator) (n : Nat) : Constraint :=
  ⟨subject, o, .number (.finite n)⟩

/-- A truth value. -/
def flagged (subject : String) (b : Bool) : Constraint := ⟨subject, .eq, .flag b⟩

/-- The entries that are used unless others are given. -/
def standard : List Impossibility := [
  ⟨flagged "is_student" true, compared "work_experience_years" .gte 10, .medium,
    "A current student is not expected to have ten or more years of work experience"⟩,
  ⟨compared "age" .lt 18, compared "work_experience_years" .gte 10, .high,
    "A minor cannot have accumulated ten years of work experience"⟩,
  ⟨compared "age" .lt 18, flagged "is_retired" true, .high, "A minor cannot be retired"⟩,
  ⟨compared "age" .lt 18, compared "pension_contribution_years" .gte 10, .high,
    "A minor cannot have ten years of pension contributions"⟩,
  ⟨compared "age" .lt 16, flagged "is_married" true, .medium,
    "Marriage below sixteen is not legally recognised"⟩,
  ⟨flagged "is_unemployed" true, compared "employment_income" .gt 0, .high,
    "An unemployed applicant has no employment income"⟩,
  ⟨flagged "is_employed" false, compared "employment_income" .gt 0, .high,
    "An applicant without employment has no employment income"⟩,
  ⟨flagged "has_dependents" false, compared "number_of_dependents" .gt 0, .high,
    "An applicant without dependents cannot report a positive number of them"⟩,
  ⟨flagged "is_citizen" false, compared "years_of_citizenship" .gt 0, .high,
    "A non-citizen has no years of citizenship"⟩,
  ⟨flagged "is_homeowner" false, compared "property_tax_paid" .gt 0, .low,
    "Property tax is normally paid by owners, not tenants"⟩]

end Impossibility
end Eligibility
