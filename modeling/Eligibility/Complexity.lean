import Eligibility.Settings
/-!
# Complexity scores

**Factors.**  Six factors are measured, each is brought to the range from zero to
one, weighted, and counted in points of a hundred.  The sum, to one place, is the
score; its band is low below 33, moderate below 67 and high from there on.

**Arithmetic.**  Every operation is the exact one followed by a rounding, which is
a parameter: `Number.keep` gives double precision, the identity exact arithmetic.

**Functions.**
* `Factor.share`: a factor between zero and one.
* `Factor.points`: what a factor contributes.
* `Score.of`: the score of measured factors.
-/

namespace Eligibility

/-- The bands of scores. -/
inductive Band where
  | low
  | moderate
  | high
  deriving DecidableEq

namespace Band

/-- The name of a band. -/
def name : Band → String
  | low => "LOW"
  | moderate => "MODERATE"
  | high => "HIGH"

/-- Where the moderate band begins. -/
def moderateFrom : Rat := 33

/-- Where the high band begins. -/
def highFrom : Rat := 67

/-- The band of a score. -/
def of (x : Number) : Band :=
  if x.lt (.finite moderateFrom) then low else if x.lt (.finite highFrom) then moderate else high

end Band

/-- What was measured of policies. -/
structure Factors where
  conditions : Nat
  density : Rat
  depth : Nat
  crossReferences : Nat
  readability : Rat
  ambiguities : Nat
  deriving DecidableEq

/-- The factors of a score. -/
inductive Factor where
  | conditionCount
  | operatorDensity
  | nestingDepth
  | crossReferences
  | readability
  | ambiguity
  deriving DecidableEq

/-- The larger of two rationals. -/
def atLeast (low q : Rat) : Rat := if low < q then q else low

/-- The smaller of two rationals. -/
def atMost (high q : Rat) : Rat := if q < high then q else high

/-- A quotient, at most one, and zero where there is nothing to divide by. -/
def ratio (round : Rat → Rat) (n d : Int) : Rat :=
  if d ≤ 0 then 0 else atMost 1 (round ((n : Rat) / (d : Rat)))

namespace Factor

/-- The factors in scoring order. -/
def all : List Factor :=
  [conditionCount, operatorDensity, nestingDepth, crossReferences, readability, ambiguity]

/-- The name of a factor. -/
def name : Factor → String
  | conditionCount => "condition_count"
  | operatorDensity => "operator_density"
  | nestingDepth => "nesting_depth"
  | crossReferences => "cross_reference_count"
  | readability => "readability_score"
  | ambiguity => "ambiguity_count"

/-- What an explanation calls a factor. -/
def label : Factor → String
  | conditionCount => "condition count"
  | operatorDensity => "operator density"
  | nestingDepth => "nesting depth"
  | crossReferences => "cross-references"
  | readability => "readability"
  | ambiguity => "ambiguity"

/-- The weight of a factor. -/
def weight (w : Weights) : Factor → Number
  | conditionCount => w.conditionCount
  | operatorDensity => w.operatorDensity
  | nestingDepth => w.nestingDepth
  | crossReferences => w.crossReferences
  | readability => w.readability
  | ambiguity => w.ambiguity

/-- A factor between zero and one; some count per clause. -/
def share (round : Rat → Rat) (cfg : Settings) (clauses : Nat) (m : Factors) : Factor → Rat
  | conditionCount => ratio round m.conditions cfg.conditionCeiling
  | operatorDensity => atMost 1 m.density
  | nestingDepth =>
      round (((min (m.depth : Int) cfg.nestingCeiling : Int) : Rat) / (cfg.nestingCeiling : Rat))
  | crossReferences => ratio round m.crossReferences clauses
  | readability => round (1 - m.readability)
  | ambiguity => ratio round m.ambiguities clauses

/-- What a factor contributes to the score. -/
def points (round : Rat → Rat) (cfg : Settings) (clauses : Nat) (m : Factors) (f : Factor) : Rat :=
  round (round (100 * (f.weight cfg.weights).value?.getD 0) * f.share round cfg clauses m)

/-- A natural number in an explanation. -/
def count (n : Nat) : String := String.ofList (Decimal.digitsOf n)

/-- A rational with a fixed count of places in an explanation. -/
def fixed (places : Nat) (q : Rat) : String := String.ofList ((Number.finite q).fixed places)

/-- What was measured, in an explanation. -/
def describe (m : Factors) : Factor → String
  | conditionCount => count m.conditions ++ " conditions"
  | operatorDensity => fixed 2 m.density ++ " logical operators per clause"
  | nestingDepth => "depth " ++ count m.depth
  | crossReferences => count m.crossReferences ++ " policy links"
  | readability => "mean readability " ++ fixed 2 m.readability
  | ambiguity => count m.ambiguities ++ " ambiguity flags"

end Factor

/-- The score of policies. -/
structure Score where
  overall : Rat
  band : Band
  factors : Factors
  contributions : List (Factor × Number)
  explanation : String

namespace Score

/-- Contributions, the largest first and equal ones by name. -/
def ranked (ps : List (Factor × Rat)) : List (Factor × Rat) :=
  ps.mergeSort fun a b => decide (b.2 < a.2) || (decide (a.2 = b.2) && decide (a.1.name ≤ b.1.name))

/-- How many factors an explanation names at most. -/
def namedFactors : Nat := 3

/-- The factors that an explanation names: the largest, and those with a quarter of the score. -/
def dominant (round : Rat → Rat) (overall : Rat) (ps : List (Factor × Rat)) :
    List (Factor × Rat) :=
  match ranked ps with
  | [] => []
  | top :: r =>
      ((top :: r).filter fun p =>
        decide (0 < p.2) &&
          (decide (p.2 = top.2) || decide (round (overall / 4) ≤ p.2))).take namedFactors

/-- The explanation of a score. -/
def explain (round : Rat → Rat) (overall : Rat) (band : Band) (m : Factors)
    (ps : List (Factor × Rat)) : String :=
  if overall ≤ 0 then
    band.name ++ " complexity (0.0): no conditions, clauses or links contribute"
  else
    band.name ++ " complexity (" ++ Factor.fixed 1 overall ++ "); dominated by " ++
      String.intercalate " and " ((dominant round overall ps).map fun p =>
        p.1.label ++ " (" ++ p.1.describe m ++ ", " ++ Factor.fixed 1 p.2 ++ " pts)")

/-- A rational to a count of places. -/
def toPlaces (round : Rat → Rat) (places : Nat) (q : Rat) : Rat :=
  round (Rounding.toPlaces places q)

/-- The contributions of measured factors. -/
def contributionsOf (round : Rat → Rat) (cfg : Settings) (clauses : Nat) (m : Factors) :
    List (Factor × Rat) :=
  Factor.all.map fun f => (f, f.points round cfg clauses m)

/-- The sum of contributions, kept between zero and a hundred, to one place. -/
def overallOf (round : Rat → Rat) (ps : List (Factor × Rat)) : Rat :=
  toPlaces round 1 (atMost 100 (atLeast 0 (Weights.total round (ps.map (·.2)))))

/-- A contribution as it is recorded, to two places: what a weight of minus zero leaves keeps the
sign of the weight. -/
def recorded (round : Rat → Rat) (w : Weights) (p : Factor × Rat) : Factor × Number :=
  (p.1, if p.1.weight w = .negZero then .negZero else .finite (toPlaces round 2 p.2))

/-- The score of measured factors. -/
def of (round : Rat → Rat) (cfg : Settings) (clauses : Nat) (m : Factors) : Score :=
  let ps := contributionsOf round cfg clauses m
  let overall := overallOf round ps
  let band := Band.of (.finite overall)
  { overall := overall
    band := band
    factors := m
    contributions := ps.map (recorded round cfg.weights)
    explanation := explain round overall band m ps }

/-- The record of a score. -/
def toJson (s : Score) : Json := .obj [
  ("overall_score", .float (.finite s.overall)), ("category", .str s.band.name),
  ("factors", .obj [
    ("condition_count", Json.nat s.factors.conditions),
    ("operator_density", .float (.finite s.factors.density)),
    ("nesting_depth", Json.nat s.factors.depth),
    ("cross_reference_count", Json.nat s.factors.crossReferences),
    ("readability_score", .float (.finite s.factors.readability)),
    ("ambiguity_count", Json.nat s.factors.ambiguities)]),
  ("contributions", .obj (s.contributions.map fun p => (p.1.name, .float p.2))),
  ("explanation", .str s.explanation)]

end Score
end Eligibility
