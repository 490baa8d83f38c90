/-!
# Line ends

**Rule.**  A carriage return, alone or before a line feed, ends a line just as a line
feed does; a text that is read from a file has line feeds only.

**Results.**
* `unifyLineEnds_eq_self`: a text without carriage returns is left as it is.
-/

namespace Eligibility
namespace Text

/-- Characters with a line feed for every line end. -/
def unifyLineEndChars : List Char → List Char
  | [] => []
  | '\r' :: '\n' :: r => '\n' :: unifyLineEndChars r
  | c :: r => (if c = '\r' then '\n' else c) :: unifyLineEndChars r

/-- A text with a line feed for every line end. -/
def unifyLineEnds (s : String) : String := String.ofList (unifyLineEndChars s.toList)

theorem unifyLineEnds_eq_self (cs : List Char) (h : '\r' ∉ cs) : unifyLineEndChars cs = cs := by
  fun_induction unifyLineEndChars cs with
  | case1 => rfl
  | case2 r _ => simp at h
  | case3 c r _ ih =>
      have hc : c ≠ '\r' := fun e => h (by simp [e])
      rw [ih fun m => h (List.mem_cons_of_mem _ m), if_neg hc]

end Text
end Eligibility
