import Mathlib.Data.Rat.Floor
import Osrd.Conflicts.ZoneUses

/-! What the availability of a path section is computed from: the steps seen along the path and the
    envelope of the train (`core/.../stdcm/infra_exploration`, `core/envelope-sim/.../envelope_utils`).

    Times are exact numbers of seconds, offsets and durations whole millimetres and milliseconds. -/

namespace Osrd.Stdcm

open Conflicts

/-! ### Units -/

/-- An offset on the path, in millimetres. -/
abbrev Offset := ℤ

def Offset.meters (offset : Offset) : ℚ := offset / 1000

/-- `kotlin.math.round`: ties go to the even neighbour. -/
def roundToEven (x : ℚ) : ℤ :=
  let lower := ⌊x⌋
  if x - lower < 1 / 2 then lower
  else if 1 / 2 < x - lower then lower + 1
  else if lower % 2 = 0 then lower
  else lower + 1

def Offset.fromMeters (meters : ℚ) : Offset := roundToEven (meters * 1000)

structure Duration where
  milliseconds : ℤ
deriving DecidableEq

namespace Duration

def seconds (d : Duration) : ℚ := d.milliseconds / 1000

def plus (d value : Duration) : Duration := ⟨d.milliseconds + value.milliseconds⟩

def minus (d value : Duration) : Duration := ⟨d.milliseconds - value.milliseconds⟩

end Duration

/-! ### Steps -/

abbrev BlockId := ℕ

structure BlockLocation where
  edge : BlockId
  offset : Offset
deriving DecidableEq

structure PlannedTimingData where
  arrivalTime : Duration
  arrivalTimeToleranceBefore : Duration
  arrivalTimeToleranceAfter : Duration

structure ExplorerStep where
  locations : List BlockLocation
  stop : Bool
  plannedTimingData : Option PlannedTimingData

/-- A step found on the path, at one of its locations. -/
structure LocatedStep where
  travelledPathOffset : Offset
  location : BlockLocation
  originalStep : ExplorerStep
  location_mem : location ∈ originalStep.locations

/-! ### The envelope -/

/-- `EnvelopeTimeInterpolate`, with positions in metres. -/
structure Envelope where
  beginPos : ℚ
  endPos : ℚ
  totalTime : ℚ
  interpolateDepartureFromClamp : ℚ → ℚ

/-- The path explored so far and the simulation of the train on it. -/
structure InfraExplorerWithEnvelope where
  fullEnvelope : Envelope
  simulatedLength : Offset
  /-- Offset of the current block on the path. -/
  currentBlockPathBegin : Offset
  /-- The blocks known to follow the current one. -/
  lookahead : List BlockId
  seenSteps : List LocatedStep
  fullSpacingRequirements : List (SpacingRequirement ℚ)
  /-- Those since the last update of the path. -/
  spacingRequirements : List (SpacingRequirement ℚ)

def InfraExplorerWithEnvelope.interpolateDepartureFromClamp (infraExplorer : InfraExplorerWithEnvelope)
    (pathOffset : Offset) : ℚ :=
  infraExplorer.fullEnvelope.interpolateDepartureFromClamp pathOffset.meters

/-! ### Binary search on the envelope -/

structure DoubleBinarySearch where
  lowBound : ℚ
  highBound : ℚ
  target : ℚ
  targetErrorMargin : ℚ
  decreasing : Bool
  isComplete : Bool

namespace DoubleBinarySearch

def new (lowBound highBound target targetErrorMargin : ℚ) (decreasing : Bool) : DoubleBinarySearch :=
  ⟨lowBound, highBound, target, targetErrorMargin, decreasing, false⟩

/-- The middle of the bounds, with which the source's field is kept in sync. -/
def input (search : DoubleBinarySearch) : ℚ := (search.lowBound + search.highBound) / 2

/-- Takes the output of the tested function for the current input. -/
def feedback (search : DoubleBinarySearch) (output : ℚ) : DoubleBinarySearch :=
  let delta := output - search.target
  if |delta| ≤ search.targetErrorMargin then { search with isComplete := true }
  else if (if search.decreasing then -delta else delta) < 0 then
    { search with lowBound := search.input }
  else { search with highBound := search.input }

/-- The search loop with a limit on its turns; the last input tried. -/
def lastInput (output : ℚ → ℚ) : ℕ → DoubleBinarySearch → ℚ → ℚ
  | 0, _, value => value
  | turns + 1, search, value =>
      if search.isComplete then value
      else lastInput output turns (search.feedback (output search.input)) search.input

end DoubleBinarySearch

end Osrd.Stdcm
