import Eligibility.Number.Decimal
/-!
# Intervals of the real line

**Ends.**  Each end is a number or an infinity, and belongs to the interval or
not.  Nothing asks the ends to be in order: a reversed interval is empty.

**Operations.**
* `isEmpty`, `isPoint`: no point, exactly one point.
* `intersect`: the points of both.
* `overlaps`, `contains`: whether points are shared, whether all points of another one are in.
* `reaches`: whether an interval extends to the lower end of another one.
-/

namespace Eligibility

/-- An interval, possibly unbounded. -/
structure Interval where
  low : Number := .negInf
  lowClosed : Bool := false
  high : Number := .posInf
  highClosed : Bool := false
  deriving DecidableEq

namespace Interval

/-- The interval of a single number. -/
def point (x : Number) : Interval := ⟨x, true, x, true⟩

/-- Whether no point lies between the ends. -/
def isEmpty (i : Interval) : Bool :=
  i.high.lt i.low || (i.low.same i.high && !(i.lowClosed && i.highClosed))

/-- Whether the ends are one closed point. -/
def isPoint (i : Interval) : Bool := i.low.same i.high && i.lowClosed && i.highClosed

/-- The points of both intervals. -/
def intersect (i j : Interval) : Interval :=
  let low : Number × Bool :=
    if j.low.lt i.low then (i.low, i.lowClosed)
    else if i.low.lt j.low then (j.low, j.lowClosed)
    else (i.low, i.lowClosed && j.lowClosed)
  let high : Number × Bool :=
    if i.high.lt j.high then (i.high, i.highClosed)
    else if j.high.lt i.high then (j.high, j.highClosed)
    else (i.high, i.highClosed && j.highClosed)
  ⟨low.1, low.2, high.1, high.2⟩

/-- Whether two intervals share a point. -/
def overlaps (i j : Interval) : Bool := !(i.intersect j).isEmpty

/-- Whether an interval extends at least to the lower end of another one. -/
def reaches (i j : Interval) : Bool :=
  j.low.lt i.high || (i.high.same j.low && i.highClosed && j.lowClosed)

/-- Whether every point of the second interval lies in the first. -/
def contains (i j : Interval) : Bool :=
  j.isEmpty ||
    ((i.low.lt j.low || (i.low.same j.low && (i.lowClosed || !j.lowClosed))) &&
      (j.high.lt i.high || (i.high.same j.high && (i.highClosed || !j.highClosed))))

/-- Whether a number lies in the interval. -/
def containsPoint (i : Interval) (x : Number) : Bool := i.contains (point x)

/-- The text of an interval. -/
def describe (i : Interval) : String :=
  if i.isPoint then "[" ++ String.ofList i.low.brief ++ "]"
  else
    (if i.lowClosed then "[" else "(") ++ String.ofList i.low.brief ++ ", " ++
      String.ofList i.high.brief ++ (if i.highClosed then "]" else ")")

end Interval
end Eligibility
