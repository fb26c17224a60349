import Qrtb.Crypto.Primitives
import Qrtb.Lib.Float
import Qrtb.Lib.OrderedDict

/-!
# Measurements and their analysis (`src/measurement.py`, `src/detection.py`)

The detection engine runs four checks on the measurements of each validator and
combines them into one result. It reads the measurement graph only; locations
are stored next to it and not looked at.
-/

namespace Qrtb

open Keccak

structure RTTMeasurement (F : Type) where
  sourceId : Bytes
  targetId : Bytes
  rttMs : F
  timestamp : ℤ
  theoreticalRttMs : F
  nonce : Bytes

/-- Measurements by the validator that made them. -/
abbrev MeasurementGraph (F : Type) := OrderedDict Bytes (List (RTTMeasurement F))

structure DetectionResult (F : Type) where
  validatorId : Bytes
  isSuspicious : Bool
  confidence : F
  reasons : List String := []
  ratioScore : F
  triangleViolations : ℕ := 0
  varianceScore : F
  pathConsistencyScore : F
  deriving DecidableEq

structure TriangleCheck (F : Type) where
  nodeA : Bytes
  nodeB : Bytes
  nodeC : Bytes
  rttAB : F
  rttBC : F
  rttAC : F
  maxAllowed : F
  violation : F
  isValid : Bool

section

variable {F : Type} [PyFloat F]

open PyFloat

def HONEST_RTT_RATIO_MEAN : F := literal 1.15
def HONEST_RTT_RATIO_STD : F := literal 0.08
def DETECTION_THRESHOLD_SIGMA : F := literal 3.9

namespace RTTMeasurement

/-- Measured over theoretical time; one where there is no theoretical time. -/
def ratio (m : RTTMeasurement F) : F :=
  if le m.theoreticalRttMs (literal 0) then literal 1 else div m.rttMs m.theoreticalRttMs

/-- The hash a validator commits to; the theoretical time is not part of it. -/
def commitment (m : RTTMeasurement F) : Except PyError Bytes := do
  return sha3_256 (← concat [.bytes m.sourceId, .bytes m.targetId, .float (ieee m.rttMs),
    .int m.timestamp, .bytes m.nonce])

end RTTMeasurement

namespace DetectionEngine

def checkRatios (measurements : List (RTTMeasurement F)) : Bool × F :=
  if measurements.isEmpty then (false, literal 0)
  else
    let meanRatio := mean (measurements.map RTTMeasurement.ratio)
    let sigmaDeviation := div (sub HONEST_RTT_RATIO_MEAN meanRatio) HONEST_RTT_RATIO_STD
    (lt DETECTION_THRESHOLD_SIGMA sigmaDeviation && lt meanRatio (literal 1), sigmaDeviation)

/-- `{m.target_id: f(m) for m in measurements}`. -/
def byTarget (f : RTTMeasurement F → F) (measurements : List (RTTMeasurement F)) :
    OrderedDict Bytes F :=
  measurements.foldl (fun d m => d.set m.targetId (f m)) ∅

/-- The first measurement of `b` to `c`. -/
def findRtt (graph : MeasurementGraph F) (b c : Bytes) : Option F :=
  ((graph.getD b []).find? fun m => m.targetId = c).map RTTMeasurement.rttMs

def triangle (graph : MeasurementGraph F) (a : Bytes) (b c : Bytes × F) :
    Option (TriangleCheck F) :=
  (findRtt graph b.1 c.1).map fun rttBC =>
    let maxAllowed := add b.2 rttBC
    let violation := sub c.2 maxAllowed
    { nodeA := a, nodeB := b.1, nodeC := c.1, rttAB := b.2, rttBC := rttBC, rttAC := c.2,
      maxAllowed := maxAllowed, violation := violation, isValid := le violation (literal 0) }

/-- Each target is paired with the targets after it. -/
def trianglesOf (graph : MeasurementGraph F) (a : Bytes) : List (Bytes × F) →
    List (TriangleCheck F)
  | [] => []
  | b :: rest => rest.filterMap (triangle graph a b) ++ trianglesOf graph a rest

def checkTriangles (graph : MeasurementGraph F) (validatorId : Bytes) : List (TriangleCheck F) :=
  trianglesOf graph validatorId (byTarget RTTMeasurement.rttMs (graph.getD validatorId [])).items

def checkVariance (measurements : List (RTTMeasurement F)) : Bool × F :=
  if measurements.length < 2 then (false, literal 0)
  else
    let v := variance (measurements.map RTTMeasurement.ratio)
    let expectedHonestVariance : F := mul HONEST_RTT_RATIO_STD HONEST_RTT_RATIO_STD
    (lt v (mul expectedHonestVariance (literal 0.25)), v)

def checkPathConsistency (graph : MeasurementGraph F) (validatorId : Bytes) : Bool × F :=
  let measurements := graph.getD validatorId []
  if measurements.length < 2 then (false, literal 0)
  else
    let ratios := (byTarget RTTMeasurement.ratio measurements).values
    if ratios.length < 2 then (false, literal 0)
    else
      let meanRatio := mean ratios
      let cv := if lt (literal 0) meanRatio then div (stdev ratios) meanRatio else literal 0
      (lt (literal 0.15) cv, cv)

/-- A reason is added when its check fires. -/
def reasonIf (fires : Bool) (reason : String) : List String := if fires then [reason] else []

def analyzeValidator (graph : MeasurementGraph F) (validatorId : Bytes) : DetectionResult F :=
  let measurements := graph.getD validatorId []
  if measurements.isEmpty then
    { validatorId := validatorId, isSuspicious := false, confidence := literal 0,
      ratioScore := literal 0, varianceScore := literal 0, pathConsistencyScore := literal 0 }
  else
    let (ratioSuspicious, ratioScore) := checkRatios measurements
    let triangles := checkTriangles graph validatorId
    let violations := (triangles.filter fun t => !t.isValid).length
    let triangleRate : F := div (literal violations) (literal (max triangles.length 1))
    let rateHigh := lt (literal 0.3) triangleRate
    let (varianceSuspicious, varianceScore) := checkVariance measurements
    let (pathSuspicious, pathScore) := checkPathConsistency graph validatorId
    let signals := [ratioSuspicious, varianceSuspicious, rateHigh, pathSuspicious].count true
    let meanRatio := mean (measurements.map RTTMeasurement.ratio)
    let extremelyLow := lt meanRatio (literal 0.9)
    { validatorId := validatorId
      isSuspicious := decide (2 ≤ signals) || extremelyLow
      confidence := div (literal signals) (literal 4)
      reasons :=
        reasonIf ratioSuspicious s!"RTT ratio anomaly: {fixed 2 ratioScore}σ below mean" ++
        reasonIf (decide (0 < violations) && rateHigh)
          s!"Triangle violations: {violations} ({percent 1 triangleRate})" ++
        reasonIf varianceSuspicious s!"Suspiciously low variance: {fixed 3 varianceScore}" ++
        reasonIf pathSuspicious s!"Path inconsistency: {fixed 2 pathScore}" ++
        reasonIf extremelyLow s!"Extremely low ratio: {fixed 2 meanRatio}"
      ratioScore := ratioScore
      triangleViolations := violations
      varianceScore := varianceScore
      pathConsistencyScore := pathScore }

/-- One result for every validator of the graph, in its order. -/
def analyzeAll (graph : MeasurementGraph F) : OrderedDict Bytes (DetectionResult F) :=
  .ofKeys (analyzeValidator graph) graph.keys

theorem get?_analyzeAll (graph : MeasurementGraph F) (v : Bytes) :
    (analyzeAll graph).get? v =
      if v ∈ graph.keys then some (analyzeValidator graph v) else none := by
  rw [analyzeAll, OrderedDict.get?_ofKeys]
  congr

end DetectionEngine

end

end Qrtb
