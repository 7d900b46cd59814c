import Osrd.Timetable.Simulation
import Osrd.Projection.SpaceTime

/-! Model of the projection of trains on a list of operational points
    (`editoast/src/views/projection.rs`): what is drawn of a train, the curves that follow from it, and the
    batch that projects a list of trains.

    The batch draws once what the trains that share a simulation have in common, from the first of them.
    A simulation does not say at which operational points the path of a train passes, nor at which of its
    path items a stop is: two trains that share one may have to be drawn in two ways. -/

namespace Osrd.Projection

open HashTable (collect Visit Bucket groups groupWork fillAll)
open Timetable (ScheduleItem)
open Timetable.Simulation List Function

/-! ### Space time curves -/

variable (build : Build)

namespace SpaceTimeCurve

def empty : SpaceTimeCurve := ⟨[], []⟩

variable (curve : SpaceTimeCurve)

/-- The last point, when the curve has one. -/
def last : Option (ℕ × ℕ) := do
  let position ← curve.positions.getLast?
  let time ← curve.times.getLast?
  return (position, time)

def pushPoint (position time : ℕ) : SpaceTimeCurve :=
  if curve.last = some (position, time) then curve
  else ⟨curve.positions ++ [position], curve.times ++ [time]⟩

def pushStop (position time stopFor : ℕ) : SpaceTimeCurve :=
  if curve.last = some (position, time + stopFor) then curve
  else if stopFor = 0 then ⟨curve.positions ++ [position], curve.times ++ [time]⟩
  else ⟨curve.positions ++ [position, position], curve.times ++ [time, time + stopFor]⟩

def isEmpty : Bool := curve.positions.isEmpty

def linearInterpolateCurve (x y : List ℕ) (value : ℕ) : Option ℕ :=
  if x.length = y.length then do
    let lastX ← x.getLast?
    if lastX < value then y.getLast?
    else
      let index ← findIndexUpper x value
      if index = 0 then y.head? else interpolateBetween build x y (index - 1) index value
  else none

def linearInterpolateTime (build : Build) (curve : SpaceTimeCurve) (time : ℕ) : Option ℕ :=
  linearInterpolateCurve build curve.times curve.positions time

def linearInterpolatePosition (build : Build) (curve : SpaceTimeCurve) (position : ℕ) : Option ℕ :=
  linearInterpolateCurve build curve.positions curve.times position

end SpaceTimeCurve

/-! ### What is drawn of a train -/

structure OperationalPointRefAndTime where
  arrivalTime : ℕ
  stopFor : ℕ
  opRef : OperationalPointReference

structure TrainToProjectOnOperationalPoint where
  spaceTimeCurve : Option SpaceTimeCurve
  refs : List OperationalPointRefAndTime

/-- The operational point of a location that is not an offset on a track. -/
def operationalPointOf : PathItemLocation → Option OperationalPointReference
  | .OperationalPointPartReference opRef => some opRef.operationalPoint
  | .TrackOffset _ => none

/-- A duration of the schedule items, by path item. -/
def durationInputs (duration : ScheduleItem → Option ℕ) (schedule : List ScheduleItem) :
    String → Option ℕ :=
  collect (schedule.filterMap fun item => (duration item).map fun value => (item.atItem, value))

def stopsInput : List ScheduleItem → String → Option ℕ := durationInputs (·.stopFor)

def arrivalInputs : List ScheduleItem → String → Option ℕ := durationInputs (·.arrival)

variable (ts : TrainScheduleLike)

def newFromInput : TrainToProjectOnOperationalPoint :=
  let stops := stopsInput ts.schedule
  let arrivals := arrivalInputs ts.schedule
  let refs := ts.path.map fun item =>
    (operationalPointOf item.location).map fun opRef => (opRef, item.id)
  let firstOpRef := refs.head?.join.map fun p =>
    (⟨0, (stops p.2).getD 0, p.1⟩ : OperationalPointRefAndTime)
  let others := refs.tail.reduceOption.map fun p => (arrivals p.2).map fun arrivalTime =>
    (⟨arrivalTime, (stops p.2).getD 0, p.1⟩ : OperationalPointRefAndTime)
  ⟨none, (firstOpRef :: others).reduceOption⟩

/-- The points of the curve of a train that does not respect its times, and its last scheduled time. -/
structure ScheduledCurve where
  curve : SpaceTimeCurve
  lastScheduledTime : ℕ

/-- A turn of the loop over the path items and their positions. -/
def drawScheduledItem (scheduleMap : String → Option ScheduleItem) (drawn : ScheduledCurve)
    (item : PathItem × ℕ) : ScheduledCurve :=
  match scheduleMap item.1.id with
  | none => drawn
  | some scheduleItem =>
    match scheduleItem.arrival, scheduleItem.stopFor with
    | none, _ => drawn
    | some arrival, none =>
        ⟨⟨drawn.curve.positions ++ [item.2], drawn.curve.times ++ [arrival]⟩, arrival⟩
    | some arrival, some stopFor =>
        ⟨⟨drawn.curve.positions ++ [item.2, item.2],
          drawn.curve.times ++ [arrival, arrival + stopFor]⟩, arrival⟩

/-- The cast to an unsigned number of 64 bits. -/
def toU64 (n : ℤ) : ℕ := (n % 2 ^ 64).toNat

/-- The end of the curve, from the simulation. -/
def drawSimulatedEnd (sim : SimulationResponseSuccess) (drawn : ScheduledCurve)
    (lastScheduledPosition : ℕ) : Option SpaceTimeCurve := do
  let simCurve : SpaceTimeCurve := ⟨sim.finalOutput.reportTrain.positions, sim.finalOutput.reportTrain.times⟩
  let lastSimTime ← simCurve.linearInterpolatePosition build lastScheduledPosition
  let diffTime : ℤ := (drawn.lastScheduledTime : ℤ) - (lastSimTime : ℤ)
  let lastPosition ← simCurve.positions.getLast?
  let nbPointsToIgnore ← findIndexLower simCurve.positions lastPosition
  let points := (simCurve.positions.zip simCurve.times).drop nbPointsToIgnore
  return ⟨drawn.curve.positions ++ points.map Prod.fst,
    drawn.curve.times ++ points.map fun p => toU64 ((p.2 : ℤ) + diffTime)⟩

def extractCurveForInvalidTrainWithSim (trainSchedule : TrainScheduleLike)
    (sim : SimulationResponseSuccess) (path : PathfindingResultSuccess) : Option SpaceTimeCurve := do
  let scheduleMap := collect (trainSchedule.schedule.map fun item => (item.atItem, item))
  let drawn := (trainSchedule.path.zip path.pathItemPositions).foldl (drawScheduledItem scheduleMap)
    ⟨⟨[0], [0]⟩, 0⟩
  let lastScheduledPosition ← drawn.curve.positions.getLast?
  if lastScheduledPosition = path.length then return drawn.curve
  else drawSimulatedEnd build sim drawn lastScheduledPosition

/-- The stops of a train that does not respect its times: those at its ends and those with an arrival. -/
def stopsOfInvalid (schedule : List ScheduleItem) (firstPathItemId lastPathItemId : String) :
    String → Option ℕ :=
  stopsInput (schedule.filter fun item =>
    item.atItem = lastPathItemId ∨ item.atItem = firstPathItemId ∨ item.arrival.isSome)

/-- The operational point of a path item, at the time of its position. -/
def drawInvalidItem (curve : SpaceTimeCurve) (stops : String → Option ℕ)
    (item : PathItem × ℕ) : Option (Option OperationalPointRefAndTime) :=
  match operationalPointOf item.1.location with
  | none => some none
  | some opRef => do
      let arrivalTime ← curve.linearInterpolatePosition build item.2
      return some ⟨arrivalTime, (stops item.1.id).getD 0, opRef⟩

def newFromInvalid (sim : SimulationResponseSuccess)
    (path : PathfindingResultSuccess) : Option TrainToProjectOnOperationalPoint := do
  let spaceTimeCurve ← extractCurveForInvalidTrainWithSim build ts sim path
  let last ← ts.path.getLast?
  let first ← ts.path.head?
  let refs ← (ts.path.zip path.pathItemPositions).mapM
    (drawInvalidItem build spaceTimeCurve (stopsOfInvalid ts.schedule first.id last.id))
  return ⟨some spaceTimeCurve, refs.reduceOption⟩

/-- The operational point of a path item, at its time in the simulation. -/
def drawItem (stops : String → Option ℕ) (item : PathItem × ℕ) : Option OperationalPointRefAndTime :=
  (operationalPointOf item.1.location).map fun opRef => ⟨item.2, (stops item.1.id).getD 0, opRef⟩

def newFromSimulation : Response → PathfindingResult → Option TrainToProjectOnOperationalPoint
  | .Success sim, .Success path => do
      let respectTimes ← pathItemRespectTimes sim.finalOutput.reportTrain.pathItemTimes ts
      if respectTimes.all id then
        let report := sim.finalOutput.reportTrain
        return ⟨some ⟨report.positions, report.times⟩,
          (ts.path.zip report.pathItemTimes).filterMap (drawItem (stopsInput ts.schedule))⟩
      else newFromInvalid build ts sim path
  | _, _ => some (newFromInput ts)

/-! ### Names of path items

    What is drawn of a train reads the names of its path items only to find the schedule of an item. -/

def renamePathItem (f : String → String) (item : PathItem) : PathItem := ⟨⟨f item.id⟩, item.location⟩

def renameScheduleItem (f : String → String) (item : ScheduleItem) : ScheduleItem :=
  { item with atItem := f item.atItem }

/-- The trains have one path and one schedule, up to the names of the path items. -/
structure Renamed (f : String → String) (ts ts' : TrainScheduleLike) : Prop where
  injective : Function.Injective f
  path : ts'.path = ts.path.map (renamePathItem f)
  schedule : ts'.schedule = ts.schedule.map (renameScheduleItem f)

namespace Renamed

variable {f : String → String} {ts ts' : TrainScheduleLike}

theorem durationInputs {duration : ScheduleItem → Option ℕ}
    (hduration : ∀ item, duration (renameScheduleItem f item) = duration item)
    (hf : Function.Injective f) (schedule : List ScheduleItem) (id : String) :
    durationInputs duration (schedule.map (renameScheduleItem f)) (f id) =
      durationInputs duration schedule id := by
  have hentries : (schedule.map (renameScheduleItem f)).filterMap
        (fun item => (duration item).map fun value => (item.atItem, value)) =
      (schedule.filterMap fun item => (duration item).map fun value => (item.atItem, value)).map
        fun e => (f e.1, e.2) := by
    rw [filterMap_map, map_filterMap]
    congr 1
    funext item
    simp only [comp_apply, hduration, Option.map_map]
    rfl
  rw [Projection.durationInputs, hentries, HashTable.collect_rename hf, Projection.durationInputs]

variable (h : Renamed f ts ts')

include h in
theorem stopsInput (id : String) : stopsInput ts'.schedule (f id) = stopsInput ts.schedule id := by
  rw [h.schedule]
  exact durationInputs (fun _ => rfl) h.injective _ _

include h in
theorem arrivalInputs (id : String) :
    arrivalInputs ts'.schedule (f id) = arrivalInputs ts.schedule id := by
  rw [h.schedule]
  exact durationInputs (fun _ => rfl) h.injective _ _

include h in
theorem pathItemRespectTimes (times : List ℕ) :
    pathItemRespectTimes times ts' = pathItemRespectTimes times ts := by
  have hindex : ∀ id, collect (ts'.path.zipIdx.map fun p => (p.1.id, p.2)) (f id) =
      collect (ts.path.zipIdx.map fun p => (p.1.id, p.2)) id := by
    intro id
    refine Eq.trans ?_ (HashTable.collect_rename h.injective _ id)
    rw [h.path, zipIdx_map, map_map, map_map]
    rfl
  simp only [Timetable.Simulation.pathItemRespectTimes]
  rw [h.schedule, foldlM_map]
  congr 1
  funext res item
  simp only [checkItem, renameScheduleItem, hindex]

include h in
theorem newFromInput : newFromInput ts' = newFromInput ts := by
  have hrefs : ts'.path.map (fun item =>
        (operationalPointOf item.location).map fun opRef => (opRef, item.id)) =
      (ts.path.map fun item =>
        (operationalPointOf item.location).map fun opRef => (opRef, item.id)).map
        (Option.map fun p => (p.1, f p.2)) := by
    rw [h.path, map_map, map_map]
    apply map_congr_left
    intro item _
    simp only [comp_apply, Option.map_map]
    rfl
  simp only [Projection.newFromInput]
  rw [hrefs, head?_map, ← map_tail, reduceOption_map, map_map]
  congr 3
  · cases (ts.path.map fun item =>
      (operationalPointOf item.location).map fun opRef => (opRef, item.id)).head? with
    | none => rfl
    | some first =>
      cases first with
      | none => rfl
      | some p => simp [h.stopsInput]
  · apply map_congr_left
    intro p _
    simp [h.stopsInput, h.arrivalInputs]

include h in
/-- The path items with their positions or their times. -/
theorem zip_path (values : List ℕ) : ts'.path.zip values =
    (ts.path.zip values).map fun p => (renamePathItem f p.1, p.2) := by
  rw [h.path, zip_map_left]
  rfl

variable (build : Build) (sim : SimulationResponseSuccess) (path : PathfindingResultSuccess)

include h in
theorem extractCurve : extractCurveForInvalidTrainWithSim build ts' sim path =
      extractCurveForInvalidTrainWithSim build ts sim path := by
  have hmap : ∀ id, collect (ts'.schedule.map fun item => (item.atItem, item)) (f id) =
      (collect (ts.schedule.map fun item => (item.atItem, item)) id).map (renameScheduleItem f) := by
    intro id
    rw [← HashTable.collect_map h.injective, h.schedule, map_map, map_map]
    rfl
  have hdraw : ∀ (drawn : ScheduledCurve) (p : PathItem × ℕ),
      drawScheduledItem (collect (ts'.schedule.map fun item => (item.atItem, item))) drawn
        (renamePathItem f p.1, p.2) =
      drawScheduledItem (collect (ts.schedule.map fun item => (item.atItem, item))) drawn p := by
    intro drawn p
    simp only [drawScheduledItem, renamePathItem, hmap]
    cases collect (ts.schedule.map fun item => (item.atItem, item)) p.1.id <;> rfl
  simp only [extractCurveForInvalidTrainWithSim]
  rw [h.zip_path, foldl_map]
  simp only [hdraw]

include h in
theorem stopsOfInvalid (first last id : String) : stopsOfInvalid ts'.schedule (f first) (f last) (f id) =
      stopsOfInvalid ts.schedule first last id := by
  simp only [Projection.stopsOfInvalid, Projection.stopsInput]
  rw [h.schedule, filter_map, durationInputs (fun _ => rfl) h.injective]
  congr 2
  funext item
  simp [renameScheduleItem, h.injective.eq_iff]

include h in
theorem newFromInvalid : newFromInvalid build ts' sim path = newFromInvalid build ts sim path := by
  simp only [Projection.newFromInvalid]
  rw [h.extractCurve, h.zip_path]
  rw [h.path, getLast?_map, head?_map]
  cases ts.path.getLast? with
  | none => rfl
  | some last =>
    cases ts.path.head? with
    | none => rfl
    | some first =>
      have hdraw : ∀ (curve : SpaceTimeCurve) (p : PathItem × ℕ), drawInvalidItem build curve
          (Projection.stopsOfInvalid ts'.schedule (f first.id) (f last.id))
          (renamePathItem f p.1, p.2) =
          drawInvalidItem build curve (Projection.stopsOfInvalid ts.schedule first.id last.id) p := by
        intro curve p
        simp only [drawInvalidItem, renamePathItem, h.stopsOfInvalid]
      simp only [renamePathItem] at hdraw
      simp only [Option.map_some, renamePathItem, mapM_map, Option.bind_eq_bind,
        Option.bind_some, comp_def, hdraw]

include h in
theorem newFromSimulation (simulation : Response) (pathfinding : PathfindingResult) :
    newFromSimulation build ts' simulation pathfinding =
      newFromSimulation build ts simulation pathfinding := by
  cases simulation with
  | PathfindingFailed => exact congrArg some h.newFromInput
  | SimulationFailed => exact congrArg some h.newFromInput
  | Success sim =>
    cases pathfinding with
    | Failure => exact congrArg some h.newFromInput
    | Success path =>
      have hdraw : ∀ p : PathItem × ℕ,
          drawItem (Projection.stopsInput ts'.schedule) (renamePathItem f p.1, p.2) =
            drawItem (Projection.stopsInput ts.schedule) p := by
        intro p
        simp only [drawItem, renamePathItem, h.stopsInput]
      simp only [Projection.newFromSimulation]
      rw [h.pathItemRespectTimes, h.newFromInvalid, h.zip_path, filterMap_map]
      simp only [comp_def, hdraw]

end Renamed

/-! ### Projection -/

structure OperationalPointModel where
  objId : String
  /-- The secondary code of the extension, if the operational point has one. -/
  ch : Option String

structure OperationalPointCache where
  ops : List OperationalPointModel
  uicToIndices : ℕ → Option (List ℕ)
  trigramToIndices : String → Option (List ℕ)
  uic_lt : ∀ uic indices, uicToIndices uic = some indices → ∀ i ∈ indices, i < ops.length
  trigram_lt : ∀ trigram indices, trigramToIndices trigram = some indices →
    ∀ i ∈ indices, i < ops.length

namespace OperationalPointCache

/-- The first operational point at the indices that has the secondary code. -/
def findOpBySecondaryCode (cache : OperationalPointCache) (secondaryCode : Option String)
    (indices : List ℕ) : Option OperationalPointModel :=
  (indices.filterMap fun i => cache.ops[i]?).find? fun op => secondaryCode = op.ch

def getOpRefId (cache : OperationalPointCache) : OperationalPointReference → Option String
  | .Id operationalPoint => some operationalPoint
  | .Trigram trigram secondaryCode => do
      let indices ← cache.trigramToIndices trigram
      let op ← cache.findOpBySecondaryCode secondaryCode indices
      return op.objId
  | .Uic uic secondaryCode => do
      let indices ← cache.uicToIndices uic
      let op ← cache.findOpBySecondaryCode secondaryCode indices
      return op.objId

end OperationalPointCache

/-- The positions of the operational points of the projection. -/
abbrev OperationalPointProjection := OperationalPointReference → Option ℕ

def matchOpRefWithOps (projection : OperationalPointProjection) (opRef : OperationalPointReference)
    (opCache : OperationalPointCache) : Option ℕ :=
  match opCache.getOpRefId opRef with
  | some opId => projection (.Id opId)
  | none => projection opRef

/-- A slice that goes backwards or past the end panics. -/
def slice (values : List ℕ) (startIndex endIndex : ℕ) : Option (List ℕ) :=
  if startIndex ≤ endIndex ∧ endIndex ≤ values.length then
    some ((values.take endIndex).drop startIndex)
  else none

/-- An operational point on the projection: its position, the arrival and the stop there. -/
abbrev MatchedOp := ℕ × ℕ × ℕ

/-- The points of the simulation between two operational points. -/
def pushBetween (curve : SpaceTimeCurve) (a b : MatchedOp) :
    Option SpaceTimeCurve → Option SpaceTimeCurve
  | none => some curve
  | some spaceTimeCurve => do
      let indexBegin ← findIndexUpper spaceTimeCurve.times a.2.1
      let indexEnd ← findIndexUpper spaceTimeCurve.times b.2.1
      let start ← spaceTimeCurve.linearInterpolateTime build a.2.1
      let stop ← spaceTimeCurve.linearInterpolateTime build b.2.1
      let times ← slice spaceTimeCurve.times indexBegin indexEnd
      let positions ← slice spaceTimeCurve.positions indexBegin indexEnd
      (times.zip positions).foldlM (fun curve p => do
        let interPos ← linearInterpolate build start stop a.1 b.1 p.2
        return curve.pushPoint interPos p.1) curve

/-- A turn of the loop: the curves that are closed, and the current one. -/
def projectWindow (spaceTimeCurve : Option SpaceTimeCurve) (state : List SpaceTimeCurve × SpaceTimeCurve) :
    Option MatchedOp → Option MatchedOp → Option (List SpaceTimeCurve × SpaceTimeCurve)
  | some a, some b => do
      let curve ← pushBetween build (state.2.pushStop a.1 a.2.1 a.2.2) a b spaceTimeCurve
      return (state.1, curve.pushStop b.1 b.2.1 b.2.2)
  | none, some b =>
      if state.2.isEmpty then some (state.1, state.2.pushStop b.1 b.2.1 b.2.2)
      else some (state.1 ++ [state.2], SpaceTimeCurve.empty.pushStop b.1 b.2.1 b.2.2)
  | some a, none => some (state.1 ++ [state.2.pushStop a.1 a.2.1 a.2.2], .empty)
  | none, none => some state

def projectWindows (build : Build) (spaceTimeCurve : Option SpaceTimeCurve) :
    List SpaceTimeCurve × SpaceTimeCurve → List (Option MatchedOp) → Option (List SpaceTimeCurve)
  | state, a :: b :: ops => do
      let state ← projectWindow build spaceTimeCurve state a b
      projectWindows build spaceTimeCurve state (b :: ops)
  | state, _ => some state.1

def projectTrainPathOp (train : TrainToProjectOnOperationalPoint)
    (opCache : OperationalPointCache) (projection : OperationalPointProjection) :
      Option (List SpaceTimeCurve) :=
  let matchingOps := train.refs.map fun op =>
    (matchOpRefWithOps projection op.opRef opCache).map fun pos => (pos, op.arrivalTime, op.stopFor)
  -- a `none` at the end closes the last segment
  projectWindows build train.spaceTimeCurve ([], .empty) (matchingOps ++ [none])

/-! ### Batches -/

structure ComputeContext where
  trainSchedule : TrainScheduleLike
  simulation : Response
  pathfinding : PathfindingResult

section Batches

variable {Consist : Type}

/-- The curves of one train, from what is given of it. -/
def projectContext (opCache : OperationalPointCache) (projection : OperationalPointProjection)
    (context : ComputeContext) : Option (List SpaceTimeCurve) := do
  let trainToProject ←
    newFromSimulation build context.trainSchedule context.simulation context.pathfinding
  projectTrainPathOp build trainToProject opCache projection

/-- What is given of each train, under the address of its simulation. -/
def contexts (trainSchedules : List TrainScheduleLike)
    (simulations : List (Arc Response × PathfindingResult)) : List (ℕ × ComputeContext) :=
  (trainSchedules.zip simulations).map fun p => (p.2.1.address, ⟨p.1, p.2.1.value, p.2.2⟩)

def computeProjectedTrainPathOp (build : Build) (batch : Batch Consist) (services : ℕ → Services Consist)
    (visit : Visit (Bucket ℕ ComputeContext)) (trains : List PathedTrain)
    (opCache : OperationalPointCache) (projection : OperationalPointProjection) :
    Option (List (List SpaceTimeCurve)) := do
  let simulations ← trainSimulationBatch batch services trains
  let toCompute := groups ((contexts (trains.map Prod.snd) simulations).map some)
  let writes ← (visit.order toCompute).mapM (groupWork (projectContext build opCache projection))
  return fillAll (List.replicate trains.length []) writes

/-- The trains are drawn in one way: their paths have one length and put the path items at the same
    positions, and their path items and schedules are the same up to the names of the path items. -/
structure SameDrawing (t t' : PathedTrain) : Prop where
  pathfinding : ∀ path path', t.1 = .Success path → t'.1 = .Success path' →
    path.length = path'.length ∧ path.pathItemPositions = path'.pathItemPositions
  schedule : ∃ f, Renamed f t.2 t'.2

/-- A path is read for its length and for the positions of the path items. -/
theorem newFromSimulation_congr (simulation : Response)
    {path path' : PathfindingResultSuccess} (hlength : path.length = path'.length)
    (hpositions : path.pathItemPositions = path'.pathItemPositions) :
    newFromSimulation build ts simulation (.Success path) =
      newFromSimulation build ts simulation (.Success path') := by
  cases simulation with
  | PathfindingFailed => rfl
  | SimulationFailed => rfl
  | Success sim =>
    simp only [newFromSimulation, newFromInvalid, extractCurveForInvalidTrainWithSim, hlength, hpositions]

variable {batch : Batch Consist}

/-- The trains make requests with one hash, so both have a path. -/
theorem SameDrawing.projectContext_eq (build : Build) {t t' : PathedTrain} (h : SameDrawing t t')
    (hhash : SameHash batch t t') (opCache : OperationalPointCache)
    (projection : OperationalPointProjection) (simulation : Response) :
    projectContext build opCache projection ⟨t'.2, simulation, t'.1⟩ =
      projectContext build opCache projection ⟨t.2, simulation, t.1⟩ := by
  obtain ⟨f, hf⟩ := h.schedule
  obtain ⟨key, r, r', hr, hr'⟩ := hhash
  obtain ⟨path, hpath⟩ := exists_path_of_input hr
  obtain ⟨path', hpath'⟩ := exists_path_of_input hr'
  obtain ⟨hlength, hpositions⟩ := h.pathfinding path path' hpath hpath'
  simp only [projectContext]
  rw [hf.newFromSimulation, hpath, hpath', newFromSimulation_congr _ _ _ hlength hpositions]

variable {trains : List PathedTrain} {simulations : List (Arc Response × PathfindingResult)}

theorem getElem?_contexts {chunk i : ℕ} {c : ℕ × ComputeContext} (h : Shares batch chunk trains simulations)
    (hc : (contexts (trains.map Prod.snd) simulations)[i]? = some c) :
    ∃ t s, trains[i]? = some t ∧ simulations[i]? = some s ∧
      c = (s.1.address, ⟨t.2, s.1.value, t.1⟩) := by
  rw [contexts, getElem?_map, Option.map_eq_some_iff] at hc
  obtain ⟨p, hp, rfl⟩ := hc
  obtain ⟨hts, hs⟩ := getElem?_zip_eq_some.mp hp
  rw [getElem?_map, Option.map_eq_some_iff] at hts
  obtain ⟨t, ht, hts⟩ := hts
  have hpathfinding : p.2.2 = t.1 := by
    have hi := congrArg (fun l => l[i]?) h.pathfindings
    simpa [ht, hs] using hi
  exact ⟨t, p.2, ht, hs, by rw [hpathfinding, hts]⟩

/-- Trains of one chunk whose requests have one hash are drawn in one way. -/
def SharedDrawings (batch : Batch Consist) (trains : List PathedTrain) : Prop :=
  ∀ i j t t', i / TRAIN_SIZE_BATCH = j / TRAIN_SIZE_BATCH → trains[i]? = some t →
    trains[j]? = some t' → SameHash batch t t' → SameDrawing t t'

theorem contexts_sameWork (build : Build) (hshares : Shares batch 0 trains simulations)
    (h : SharedDrawings batch trains) (opCache : OperationalPointCache)
    (projection : OperationalPointProjection) :
    HashTable.SameWork (projectContext build opCache projection)
      (contexts (trains.map Prod.snd) simulations) := by
  intro c hc c' hc' haddress
  obtain ⟨i, hi⟩ := mem_iff_getElem?.mp hc
  obtain ⟨j, hj⟩ := mem_iff_getElem?.mp hc'
  obtain ⟨t, s, ht, hs, rfl⟩ := getElem?_contexts hshares hi
  obtain ⟨t', s', ht', hs', rfl⟩ := getElem?_contexts hshares hj
  obtain ⟨hvalue, hij⟩ := hshares.shared hs hs' haddress
  rcases hij with rfl | ⟨u, u', hu, hu', hhash⟩
  · rw [ht] at ht'
    cases ht'
    rw [hvalue]
  · have hchunk : i / TRAIN_SIZE_BATCH = j / TRAIN_SIZE_BATCH := by
      have hi := hshares.address hs
      have hj := hshares.address hs'
      rw [hvalue] at hi
      omega
    rw [ht] at hu
    rw [ht'] at hu'
    cases hu
    cases hu'
    rw [hvalue]
    exact ((h i j t t' hchunk ht ht' hhash).projectContext_eq build hhash opCache projection _).symm

/-- The curves of a batch: those of each train, projected on its own. -/
theorem computeProjectedTrainPathOp_eq (build : Build) (batch : Batch Consist)
    (services : ℕ → Services Consist) (visit : Visit (Bucket ℕ ComputeContext)) (trains : List PathedTrain)
    (opCache : OperationalPointCache) (projection : OperationalPointProjection)
    (h : SharedDrawings batch trains) :
    computeProjectedTrainPathOp build batch services visit trains opCache projection =
      (trainSimulationBatch batch services trains).bind fun simulations =>
        (contexts (trains.map Prod.snd) simulations).mapM fun c =>
          projectContext build opCache projection c.2 := by
  rw [computeProjectedTrainPathOp]
  cases hsimulations : trainSimulationBatch batch services trains with
  | none => rfl
  | some simulations =>
    have hshares := trainSimulationBatch_shares hsimulations
    have hlength : trains.length = (contexts (trains.map Prod.snd) simulations).length := by
      simp [contexts, hshares.length_eq]
    have hfill := (contexts_sameWork build hshares h opCache projection).fillAll_eq visit []
    rw [Option.bind_some, ← hfill, ← hlength]
    exact (Option.map_eq_bind ..).symm

end Batches

/-! ### Trains at one place under several names -/

def emptyCache : OperationalPointCache :=
  ⟨[], fun _ => none, fun _ => none, fun _ _ h => (nomatch h), fun _ _ h => (nomatch h)⟩

def stationA : PathItemLocation := .OperationalPointPartReference ⟨.Id "A", none⟩

def stationB : PathItemLocation := .OperationalPointPartReference ⟨.Id "B", none⟩

/-- A train without stops whose path items have the given names and whose last one is at the location. -/
def trainTo (first last : String) (location : PathItemLocation) : PathedTrain :=
  (.Success ⟨⟨[], [], [⟨"track", 0, 100, .StartToStop⟩]⟩, 100, [0, 100]⟩,
    { rollingStockName := "stock"
      path := [⟨⟨first⟩, stationA⟩, ⟨⟨last⟩, location⟩]
      schedule := []
      margins := ⟨[], [.Percentage 0]⟩
      initialSpeed := 0
      comfort := .Standard
      constraintDistribution := .Standard
      speedLimitTag := none
      powerRestrictions := []
      options := ⟨true, true, false⟩ })

def sampleBatch : Batch Unit := ⟨fun _ => 0, ⟨1, 1⟩, fun _ => some (), none, none⟩

/-- Every train takes 50 ms for its 100 mm. -/
def sampleServices : ℕ → Services Unit := fun _ =>
  ⟨fun _ => none, fun _ => some (.Success ⟨⟨⟨[0, 100], [0, 50], [0, 50]⟩, [], []⟩⟩), .inOrder⟩

def fromAToB : OperationalPointProjection := fun opRef =>
  if opRef = .Id "A" then some 0 else if opRef = .Id "B" then some 100 else none

/-- Two trains from A to B, the second with other names for its path items. -/
theorem computeProjectedTrainPathOp_eq_renamed :
    computeProjectedTrainPathOp .release sampleBatch sampleServices .inOrder
      [trainTo "a" "b" stationB, trainTo "b" "a" stationB] emptyCache fromAToB =
    some [[⟨[0, 100], [0, 50]⟩], [⟨[0, 100], [0, 50]⟩]] := by
  refine (computeProjectedTrainPathOp_eq _ _ _ _ _ _ _ ?_).trans rfl
  have hrenamed : ∀ f : String → String, Function.Injective f → ∀ first last : String,
      SameDrawing (trainTo first last stationB) (trainTo (f first) (f last) stationB) := by
    intro f hf first last
    refine ⟨?_, f, hf, rfl, rfl⟩
    rintro path path' ⟨⟩ ⟨⟩
    exact ⟨rfl, rfl⟩
  have hswap : Function.Injective (Equiv.swap "a" "b") := (Equiv.swap "a" "b").injective
  have hab : (Equiv.swap "a" "b") "a" = "b" := Equiv.swap_apply_left ..
  have hba : (Equiv.swap "a" "b") "b" = "a" := Equiv.swap_apply_right ..
  intro i j t t' _ ht ht' _
  have hmem := mem_of_getElem? ht
  have hmem' := mem_of_getElem? ht'
  simp only [mem_cons, not_mem_nil, or_false] at hmem hmem'
  rcases hmem with rfl | rfl
  · rcases hmem' with rfl | rfl
    · exact hrenamed id injective_id "a" "b"
    · have h := hrenamed _ hswap "a" "b"
      rwa [hab, hba] at h
  · rcases hmem' with rfl | rfl
    · have h := hrenamed _ hswap "b" "a"
      rwa [hab, hba] at h
    · exact hrenamed id injective_id "b" "a"

/-- The second train goes to a place on the track that is no operational point for it, but it is drawn as
    the first one, up to B: both make one request. -/
theorem computeProjectedTrainPathOp_trackOffset :
    let trains := [trainTo "a" "b" stationB, trainTo "a" "b" (.TrackOffset ⟨"track", 100⟩)]
    simulationInput sampleBatch (trainTo "a" "b" stationB) =
        simulationInput sampleBatch (trainTo "a" "b" (.TrackOffset ⟨"track", 100⟩)) ∧
      computeProjectedTrainPathOp .release sampleBatch sampleServices .inOrder trains emptyCache fromAToB =
        some [[⟨[0, 100], [0, 50]⟩], [⟨[0, 100], [0, 50]⟩]] ∧
      ((trainSimulationBatch sampleBatch sampleServices trains).bind fun simulations =>
        (contexts (trains.map Prod.snd) simulations).mapM fun c =>
          projectContext .release emptyCache fromAToB c.2) =
        some [[⟨[0, 100], [0, 50]⟩], [⟨[0], [0]⟩]] :=
  ⟨rfl, rfl, rfl⟩

end Osrd.Projection
