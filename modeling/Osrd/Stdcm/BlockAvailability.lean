import Osrd.Conflicts.Incremental
import Osrd.Stdcm.Explorer

/-! Model of `BlockAvailability` (`core/.../stdcm/preprocessing/implementation/BlockAvailability.kt`):
    when may the train use a section of its path? -/

namespace Osrd.Stdcm

open Conflicts

inductive Availability
  | Available (maximumDelay : WithBot (WithTop ℚ)) (timeOfNextConflict : WithTop ℚ)
  | Unavailable (duration : WithTop ℚ) (firstConflictOffset : Offset) (causedBy : Option String)
deriving DecidableEq

/-- A use of a zone with the train it comes from. -/
structure DetailedRequirement where
  fromTime : ℚ
  toTime : ℚ
  trainName : Option String

structure BlockAvailability where
  /-- The uses held by the `IncrementalConflictDetector`. -/
  spacingZoneUses : ParsedRequirements ℚ
  internalMarginForSteps : ℚ
  /-- `requirementsWithMetadata?.metadata` -/
  metadata : Option (ZoneId → Option (List DetailedRequirement))

structure AvailabilityProperties where
  minimumDelayToBecomeAvailable : WithTop ℚ
  firstUnavailabilityOffset : Offset
  maximumDelayToStayAvailable : WithTop ℚ
  timeOfNextUnavailability : WithTop ℚ

def CLOSED_SIGNAL_RESERVATION_MARGIN : ℚ := 20

namespace BlockAvailability

section Model

variable (b : BlockAvailability) (infraExplorer : InfraExplorerWithEnvelope)
  (startOffset endOffset : Offset)

/-! ### Planned steps -/

def plannedMinTimeAtStep (plannedTimingData : PlannedTimingData) : ℚ :=
  (plannedTimingData.arrivalTime.minus plannedTimingData.arrivalTimeToleranceBefore).seconds -
    b.internalMarginForSteps

def plannedMaxTimeAtStep (plannedTimingData : PlannedTimingData) : ℚ :=
  (plannedTimingData.arrivalTime.plus plannedTimingData.arrivalTimeToleranceAfter).seconds +
    b.internalMarginForSteps

/-- The timing data a step is checked against: steps without one, in the lookahead or out of the
    section are skipped. -/
def checkedTimingData (step : LocatedStep) : Option PlannedTimingData :=
  match step.originalStep.plannedTimingData with
  | none => none
  | some plannedTimingData =>
      if step.location.edge ∈ infraExplorer.lookahead then none
      else if startOffset ≤ step.travelledPathOffset ∧ step.travelledPathOffset ≤ endOffset then
        some plannedTimingData
      else none

def getStepAvailabilityProperties (pathStartTime : ℚ) (step : LocatedStep) :
    Option AvailabilityProperties :=
  (checkedTimingData infraExplorer startOffset endOffset step).map fun plannedTimingData =>
    let timeAtStep := infraExplorer.interpolateDepartureFromClamp step.travelledPathOffset + pathStartTime
    let plannedMinTimeAtStep := b.plannedMinTimeAtStep plannedTimingData
    let plannedMaxTimeAtStep := b.plannedMaxTimeAtStep plannedTimingData
    if timeAtStep < plannedMinTimeAtStep then
      ⟨(max (plannedMinTimeAtStep - timeAtStep) 0 : ℚ), step.travelledPathOffset, 0, 0⟩
    else if plannedMaxTimeAtStep < timeAtStep then
      -- the block is forever unavailable
      ⟨⊤, step.travelledPathOffset, 0, 0⟩
    else
      ⟨0, 0, (plannedMaxTimeAtStep - timeAtStep : ℚ), plannedMaxTimeAtStep⟩

/-- The loop over the steps; `error` is the early `return`. -/
def stepLoop (properties : LocatedStep → Option AvailabilityProperties) :
    List LocatedStep → AvailabilityProperties → Except Availability AvailabilityProperties
  | [], acc => .ok acc
  | step :: steps, acc =>
      match properties step with
      | none => stepLoop properties steps acc
      | some p =>
          if p.minimumDelayToBecomeAvailable = ⊤ then
            .error (.Unavailable ⊤ p.firstUnavailabilityOffset none)
          else if acc.minimumDelayToBecomeAvailable < p.minimumDelayToBecomeAvailable then
            stepLoop properties steps { acc with
              minimumDelayToBecomeAvailable := p.minimumDelayToBecomeAvailable
              firstUnavailabilityOffset := p.firstUnavailabilityOffset }
          else if p.maximumDelayToStayAvailable < acc.maximumDelayToStayAvailable then
            stepLoop properties steps { acc with
              maximumDelayToStayAvailable := p.maximumDelayToStayAvailable
              timeOfNextUnavailability := p.timeOfNextUnavailability }
          else stepLoop properties steps acc

/-- The variables before the loop; the offset is `Double.POSITIVE_INFINITY.meters`, which saturates. -/
def initialProperties : AvailabilityProperties := ⟨0, 2 ^ 63 - 1, ⊤, ⊤⟩

def getStepAvailability (pathStartTime : ℚ) : Availability :=
  match stepLoop (b.getStepAvailabilityProperties infraExplorer startOffset endOffset pathStartTime)
      infraExplorer.seenSteps.reverse initialProperties with
  | .error availability => availability
  | .ok acc =>
      if 0 < acc.minimumDelayToBecomeAvailable then
        if acc.maximumDelayToStayAvailable < acc.minimumDelayToBecomeAvailable then
          .Unavailable ⊤ acc.firstUnavailabilityOffset none
        else .Unavailable acc.minimumDelayToBecomeAvailable acc.firstUnavailabilityOffset none
      else .Available acc.maximumDelayToStayAvailable acc.timeOfNextUnavailability

/-! ### Conflicts -/

/-- The section starts at a stop other than the departure, the first of the seen steps. -/
def startsAtStop : Bool :=
  (((infraExplorer.seenSteps.reverse.take (infraExplorer.seenSteps.length - 1)).filter
    (·.originalStep.stop)).map (·.travelledPathOffset)).contains startOffset

/-- A requirement of the path moved to the start time of the path and cut to the relevant times. -/
def clipRequirement (pathStartTime minRelevantTime endTime : ℚ)
    (requirement : SpacingRequirement ℚ) : SpacingRequirement ℚ where
  zone := requirement.zone
  beginTime := max (pathStartTime + requirement.beginTime) minRelevantTime
  endTime := min (pathStartTime + requirement.endTime) endTime
  isComplete := requirement.isComplete

def shiftedSpacingRequirements (pathStartTime startTime endTime : ℚ) : List (SpacingRequirement ℚ) :=
  let needFullRequirements := startOffset < infraExplorer.currentBlockPathBegin
  let spacingRequirements := if needFullRequirements then infraExplorer.fullSpacingRequirements
    else infraExplorer.spacingRequirements
  let minRelevantTime :=
    if startsAtStop infraExplorer startOffset then startTime - CLOSED_SIGNAL_RESERVATION_MARGIN
    else startTime
  (spacingRequirements.map (clipRequirement pathStartTime minRelevantTime endTime)).filter
    fun requirement => (requirement.beginTime : WithTop ℚ) < requirement.endTime

/-- Turns a time into an offset on the envelope. -/
def getEnvelopeOffsetFromTime (time : ℚ) : Offset :=
  let envelope := infraExplorer.fullEnvelope
  if time < 0 then 0
  else if envelope.totalTime < time then infraExplorer.simulatedLength
  else
    Offset.fromMeters (DoubleBinarySearch.lastInput envelope.interpolateDepartureFromClamp 20
      (DoubleBinarySearch.new envelope.beginPos envelope.endPos time 2 false) 0)

def causedBy (zone : ZoneId) (startTime endTime : ℚ) : Option String :=
  ((b.metadata.bind fun metadata => metadata zone).bind fun requirements =>
    requirements.find? fun r => r.fromTime ≤ endTime ∧ startTime ≤ r.toTime).bind (·.trainName)

/-- `none` is an exception: `take(seenSteps.size - 1)` without any seen step, or the `require` of the
    conflict detector. -/
def getConflictAvailability (pathStartTime startTime endTime : ℚ) : Option Availability :=
  if infraExplorer.seenSteps.isEmpty then none
  else
    match analyseConflicts b.spacingZoneUses
        (shiftedSpacingRequirements infraExplorer startOffset pathStartTime startTime endTime) with
    | none => none
    | some (.NoConflictResponse maxDelayWithoutConflicts timeOfNextConflict) =>
        some (.Available maxDelayWithoutConflicts timeOfNextConflict)
    | some (.ConflictResponse minDelayWithoutConflicts firstConflictTime conflictingZone) =>
        some (.Unavailable minDelayWithoutConflicts
          (getEnvelopeOffsetFromTime infraExplorer (firstConflictTime - pathStartTime))
          (b.causedBy conflictingZone startTime endTime))

/-! ### Both together -/

def getMostRestrictiveAvailability : Availability → Availability → Availability
  | .Unavailable duration offset cause, .Unavailable duration' offset' cause' =>
      if duration' ≤ duration then .Unavailable duration offset cause
      else .Unavailable duration' offset' cause'
  | .Available delay time, .Available delay' time' =>
      if delay ≤ delay' then .Available delay time else .Available delay' time'
  | .Unavailable duration offset cause, .Available _ _ => .Unavailable duration offset cause
  | _, secondAvailability => secondAvailability

def pathStartTime (startTime : ℚ) : ℚ :=
  startTime - infraExplorer.interpolateDepartureFromClamp startOffset

def endTime (startTime : ℚ) : ℚ :=
  infraExplorer.interpolateDepartureFromClamp endOffset +
    pathStartTime infraExplorer startOffset startTime

/-- The availability of the section when it is entered at the given time. -/
def availabilityAt (shiftedStartTime : ℚ) : Option Availability := do
  let pathStartTime := pathStartTime infraExplorer startOffset shiftedStartTime
  let endTime := endTime infraExplorer startOffset endOffset shiftedStartTime
  let stepAvailability := b.getStepAvailability infraExplorer startOffset endOffset pathStartTime
  let conflictAvailability ←
    b.getConflictAvailability infraExplorer startOffset pathStartTime shiftedStartTime endTime
  return getMostRestrictiveAvailability stepAvailability conflictAvailability

/-- The `while` loop on `timeShift`, `conflictCause` and `firstConflictOffset`; `none` when the fuel
    runs out or a turn throws. -/
def availabilityLoop (startTime : ℚ) :
    ℕ → WithTop ℚ → Option String → Option Offset → Option Availability
  | _, .none, conflictCause, firstConflictOffset =>
      some (.Unavailable ⊤ (firstConflictOffset.getD startOffset) conflictCause)
  | 0, .some _, _, _ => none
  | fuel + 1, .some timeShift, conflictCause, firstConflictOffset => do
      let availability ← b.availabilityAt infraExplorer startOffset endOffset (startTime + timeShift)
      match availability with
      | .Available _ _ =>
          if 0 < timeShift then
            return .Unavailable timeShift (firstConflictOffset.getD startOffset) conflictCause
          else return availability
      | .Unavailable duration offset causedBy =>
          availabilityLoop startTime fuel (timeShift + duration) (causedBy <|> conflictCause)
            (firstConflictOffset.getD offset)

/-- Three turns always suffice (`turns_pos`, `availabilityLoop_describes`). -/
def getAvailability (startTime : ℚ) : Option Availability :=
  b.availabilityLoop infraExplorer startOffset endOffset startTime 3 0 none none

end Model

end BlockAvailability

end Osrd.Stdcm
