import Mathlib.Data.List.ModifyLast
import Mathlib.Tactic.Linarith
import Mathlib.Tactic.Ring

/-! The time data of the nodes and edges of the STDCM search (`core/.../stdcm/graph/TimeData.kt`),
    and how the search calls it: `getStartNodes` makes the first one, `makeSingleEdge` shifts the one
    of a node to enter an edge, `getEdgeEnd` adds the travel and stop times of the edge.

    Times are exact numbers of seconds. A bound on a delay may be infinite: nothing limits a stop
    that no later train conflicts with. -/

namespace Osrd.Stdcm

/-- `min(limit, delay)` of a finite delay. -/
def capped (delay : ℚ) : WithTop ℚ → ℚ
  | ⊤ => delay
  | (limit : ℚ) => min limit delay

structure StopTimeData where
  currentDuration : ℚ
  minDuration : ℚ
  maxDepartureDelayBeforeStop : WithTop ℚ
  deriving DecidableEq

def StopTimeData.withAddedStopTime (stop : StopTimeData) (extraStopTime : ℚ) : StopTimeData :=
  { stop with currentDuration := stop.currentDuration + extraStopTime }

structure TimeData where
  earliestReachableTime : ℚ
  maxDepartureDelayingWithoutConflict : WithTop ℚ
  maxFirstDepartureDelaying : WithTop ℚ
  timeOfNextConflictAtLocation : WithTop ℚ
  totalRunningTime : ℚ
  departureTime : ℚ
  stopTimeData : List StopTimeData
  delayAddedToLastDeparture : ℚ := 0
  deriving DecidableEq

def stopDurations (stops : List StopTimeData) : ℚ := (stops.map (·.currentDuration)).sum

namespace TimeData

variable (t : TimeData)

def totalStopDuration : ℚ := stopDurations t.stopTimeData

/-- `none` is the failed assertion: one of the two stop times without the other. -/
def withAddedTime (extraTravelTime : ℚ) (extraStopTime : Option ℚ)
    (maxAdditionalStopTime : Option (WithTop ℚ)) : Option TimeData :=
  let nextEarliestReachableTime := t.earliestReachableTime + extraTravelTime + extraStopTime.getD 0
  match extraStopTime, maxAdditionalStopTime with
  | none, none =>
      some { t with
        earliestReachableTime := nextEarliestReachableTime
        totalRunningTime := t.totalRunningTime + extraTravelTime }
  | some extraStopTime, some maxAdditionalStopTime =>
      some { t with
        earliestReachableTime := nextEarliestReachableTime
        totalRunningTime := t.totalRunningTime + extraTravelTime
        stopTimeData := t.stopTimeData ++
          [⟨extraStopTime, extraStopTime, t.maxDepartureDelayingWithoutConflict⟩]
        maxDepartureDelayingWithoutConflict := maxAdditionalStopTime
        maxFirstDepartureDelaying := min t.maxFirstDepartureDelaying maxAdditionalStopTime
        timeOfNextConflictAtLocation := nextEarliestReachableTime + maxAdditionalStopTime }
  | _, _ => none

/-- The part of `shifted` that moves the last departure: the train starts later as far as it may,
    and the last stop, if any, takes the rest. -/
def delayLastDeparture (delayAddedToLastDeparture : ℚ) : TimeData :=
  if 0 < delayAddedToLastDeparture then
    let firstDepartureTimeDelay := capped delayAddedToLastDeparture t.maxFirstDepartureDelaying
    let lastStopExtraDuration := delayAddedToLastDeparture - firstDepartureTimeDelay
    { t with
      departureTime := t.departureTime + firstDepartureTimeDelay
      maxFirstDepartureDelaying := t.maxFirstDepartureDelaying - (firstDepartureTimeDelay : ℚ)
      stopTimeData := t.stopTimeData.modifyLast (·.withAddedStopTime lastStopExtraDuration) }
  else t

/-- `none` is the failed assertion: a delay of the last departure above the shift. -/
def shifted (timeShift delayAddedToLastDeparture : ℚ)
    (timeOfNextConflictAtLocation maxDepartureDelayingWithoutConflict : WithTop ℚ) : Option TimeData :=
  if delayAddedToLastDeparture ≤ timeShift then
    let delayed := t.delayLastDeparture delayAddedToLastDeparture
    let extraRunningTime := max 0 (timeShift - delayAddedToLastDeparture)
    some { delayed with
      earliestReachableTime := t.earliestReachableTime + timeShift
      maxDepartureDelayingWithoutConflict
      timeOfNextConflictAtLocation
      delayAddedToLastDeparture
      totalRunningTime := t.totalRunningTime + extraRunningTime
      maxFirstDepartureDelaying :=
        min delayed.maxFirstDepartureDelaying maxDepartureDelayingWithoutConflict }
  else none

/-- By how much each stop of the first list has become longer in the second. -/
def addedStopValues (stops updatedStops : List StopTimeData) : List ℚ :=
  List.zipWith (fun updated stop => updated.currentDuration - stop.currentDuration) updatedStops stops

/-- `none` where `subList` throws or one of the assertions fails. -/
def getUpdatedEarliestReachableTime (updatedTimeData : TimeData) : Option ℚ :=
  let addedDepartureDelay := updatedTimeData.departureTime - t.departureTime
  if updatedTimeData.stopTimeData.length < t.stopTimeData.length then none
  else
    let updatedStopValues := updatedTimeData.stopTimeData.take t.stopTimeData.length
    let addedStopValues := addedStopValues t.stopTimeData updatedStopValues
    if 0 ≤ addedDepartureDelay ∧ ∀ value ∈ addedStopValues, 0 ≤ value then
      some (t.earliestReachableTime + addedDepartureDelay + addedStopValues.sum)
    else none

/-! ### The calls of the search -/

/-- The time data of the nodes that `getStartNodes` makes. -/
def startNode (startTime : ℚ) (maxDepartureDelay : WithTop ℚ) : TimeData where
  earliestReachableTime := startTime
  maxDepartureDelayingWithoutConflict := maxDepartureDelay
  departureTime := startTime
  timeOfNextConflictAtLocation := ⊤
  totalRunningTime := 0
  stopTimeData := []
  maxFirstDepartureDelaying := maxDepartureDelay

/-- `departureTimeShift` and `maximumDelay` of `makeSingleEdge`; `addedDelay` is the answer of
    `findMaximumAddedDelay`. Above the bound on the delay an engineering allowance makes up for the
    rest. -/
def edgeDelays (delayNeeded : ℚ) (addedDelay : WithTop ℚ) : ℚ × WithTop ℚ :=
  if t.maxDepartureDelayingWithoutConflict < delayNeeded then
    (t.maxDepartureDelayingWithoutConflict.untopD delayNeeded, 0)
  else (delayNeeded, min (t.maxDepartureDelayingWithoutConflict - (delayNeeded : ℚ)) addedDelay)

/-- One call on the time data: `getEdgeEnd` without and with a stop at the end of the edge, and
    `makeSingleEdge`. -/
inductive Call
  | travel (time : ℚ)
  | stop (time duration : ℚ) (maxAdditionalStopTime : WithTop ℚ)
  | shift (delay : ℚ) (timeOfNextConflict maximumDelay : WithTop ℚ)

namespace Call

/-- No time is negative, and a shift leaves no more delay than there was. -/
def Admissible : Call → Prop
  | .travel time => 0 ≤ time
  | .stop time duration maxAdditionalStopTime =>
      0 ≤ time ∧ 0 ≤ duration ∧ 0 ≤ maxAdditionalStopTime
  | .shift delay _ maximumDelay => 0 ≤ delay ∧ 0 ≤ maximumDelay ∧
      maximumDelay ≤ max 0 (t.maxDepartureDelayingWithoutConflict - (delay : ℚ))

def apply : Call → Option TimeData
  | .travel time => t.withAddedTime time none none
  | .stop time duration maxAdditionalStopTime =>
      t.withAddedTime time (some duration) (some maxAdditionalStopTime)
  | .shift delay timeOfNextConflict maximumDelay =>
      t.shifted delay (capped delay t.maxDepartureDelayingWithoutConflict) timeOfNextConflict
        maximumDelay

end Call

def Step (t' : TimeData) : Prop := ∃ call : Call, call.Admissible t ∧ call.apply t = some t'

/-- Any sequence of calls. -/
def Reaches : TimeData → TimeData → Prop := Relation.ReflTransGen Step

end TimeData

end Osrd.Stdcm
