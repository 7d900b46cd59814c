import Mathlib.Data.Prod.Lex
import Osrd.InfraErrors.Objects

/-! The error generators of an infrastructure (`editoast/src/generated_data/error/*.rs`).

    `generate_errors` runs the object generators of one type on every object of that type, in the order of
    their priorities, and leaves an object at the end of the first priority that has found an error on it.
    The global generators come last, whatever was found. A generator looks up objects that an earlier one has
    checked, and some write into a map of intervals that refuses an empty interval: `none` is the panic. -/

namespace Osrd.InfraErrors

open Infra (ObjectRef ApplicableDirections Direction ApplicableDirectionsTrackRange)

variable {K Obj Ctx : Type}

/-! ### `generate_errors` -/

structure NoContext where
deriving DecidableEq

inductive ObjectErrorGenerator (Obj K Ctx : Type)
  | NoContext (priority : ℕ)
      (checkFunction : Obj → InfraCache K → Graph → Option (List (InfraError K)))
  | WithContext (priority : ℕ)
      (checkFunction : Obj → InfraCache K → Graph → Ctx → Option (List (InfraError K) × Ctx))

namespace ObjectErrorGenerator

def getPriority : ObjectErrorGenerator Obj K Ctx → ℕ
  | NoContext priority _ => priority
  | WithContext priority _ => priority

def run (el : Obj) (cache : InfraCache K) (graph : Graph) (context : Ctx) :
    ObjectErrorGenerator Obj K Ctx → Option (List (InfraError K) × Ctx)
  | NoContext _ checkFunction => (checkFunction el cache graph).map (·, context)
  | WithContext _ checkFunction => checkFunction el cache graph context

end ObjectErrorGenerator

inductive GlobalErrorGenerator (K Ctx : Type)
  | NoContext (checkFunction : InfraCache K → Graph → Option (List (InfraError K)))
  | WithContext (checkFunction : InfraCache K → Graph → Ctx → Option (List (InfraError K) × Ctx))

def GlobalErrorGenerator.run (cache : InfraCache K) (graph : Graph) (context : Ctx) :
    GlobalErrorGenerator K Ctx → Option (List (InfraError K) × Ctx)
  | NoContext checkFunction => (checkFunction cache graph).map (·, context)
  | WithContext checkFunction => checkFunction cache graph context

/-- The generators that are left for one object. -/
def checkObject (cache : InfraCache K) (graph : Graph) (el : Obj) :
    List (ObjectErrorGenerator Obj K Ctx) → Bool → ℕ → Ctx → Option (List (InfraError K) × Ctx)
  | [], _, _, context => some ([], context)
  | f :: generators, foundError, currentPriority, context =>
      if f.getPriority ≠ currentPriority ∧ foundError then some ([], context)
      else do
        let (newErrors, context) ← f.run el cache graph context
        let (errors, context) ←
          checkObject cache graph el generators (foundError || !newErrors.isEmpty) f.getPriority context
        some (newErrors ++ errors, context)

def checkObjects (cache : InfraCache K) (graph : Graph)
    (generators : List (ObjectErrorGenerator Obj K Ctx)) :
    List Obj → Ctx → Option (List (InfraError K) × Ctx)
  | [], context => some ([], context)
  | el :: els, context => do
      let (newErrors, context) ← checkObject cache graph el generators false 0 context
      let (errors, context) ← checkObjects cache graph generators els context
      some (newErrors ++ errors, context)

def checkGlobals (cache : InfraCache K) (graph : Graph) :
    List (GlobalErrorGenerator K Ctx) → Ctx → Option (List (InfraError K) × Ctx)
  | [], context => some ([], context)
  | f :: generators, context => do
      let (newErrors, context) ← f.run cache graph context
      let (errors, context) ← checkGlobals cache graph generators context
      some (newErrors ++ errors, context)

/-- On the objects of one type, from the default context. -/
def generateErrors (objects : List Obj) (cache : InfraCache K) (graph : Graph)
    (objectErrGenerators : List (ObjectErrorGenerator Obj K Ctx))
    (globalErrGenerators : List (GlobalErrorGenerator K Ctx)) (context : Ctx) :
    Option (List (InfraError K)) := do
  let (errors, context) ← checkObjects cache graph objectErrGenerators objects context
  let (globalErrors, _) ← checkGlobals cache graph globalErrGenerators context
  some (errors ++ globalErrors)

/-! ### Checks that several types share -/

/-- `check_empty`. -/
def checkEmptyField (object : ObjectRef) (field : String) (isEmpty : Bool) :
    Option (List (InfraError K)) :=
  some (if isEmpty then [.newEmptyObject object field] else [])

section Checks

variable [Zero K] [LinearOrder K] (object : ObjectRef)

/-- A position on a track that exists. -/
def checkPosition (field : String) (track : TrackSectionCache K) (trackId : String)
    (position : K) : List (InfraError K) :=
  if 0 ≤ position ∧ position ≤ track.length then []
  else [.newOutOfRange object field position (0, track.length) ⟨.TrackSection, trackId⟩]

/-- One track range of a speed section or of an electrification. -/
def checkTrackRange (cache : InfraCache K)
    (entry : ApplicableDirectionsTrackRange K × ℕ) : Option (List (InfraError K)) :=
  let trackId := entry.1.track
  let field := "track_ranges." ++ toString entry.2
  if (cache.trackSection trackId).isNone then
    some [.newInvalidReference object field ⟨.TrackSection, trackId⟩]
  else do
    let track ← cache.trackSection trackId
    some (checkPosition object (field ++ ".begin") track trackId entry.1.beginAt ++
      checkPosition object (field ++ ".end") track trackId entry.1.endAt)

def checkTrackRanges (trackRanges : List (ApplicableDirectionsTrackRange K))
    (cache : InfraCache K) : Option (List (InfraError K)) :=
  (trackRanges.zipIdx.mapM (checkTrackRange object cache)).map List.flatten

/-- One part of an operational point or of a level crossing. -/
def checkPart (cache : InfraCache K) (entry : PartCache K × ℕ) : Option (List (InfraError K)) :=
  let trackId := entry.1.track
  let field := "parts." ++ toString entry.2
  if (cache.trackSection trackId).isNone then
    some [.newInvalidReference object (field ++ ".track") ⟨.TrackSection, trackId⟩]
  else do
    let track ← cache.trackSection trackId
    some (checkPosition object (field ++ ".position") track trackId entry.1.position)

def checkParts (parts : List (PartCache K)) (cache : InfraCache K) : Option (List (InfraError K)) :=
  (parts.zipIdx.mapM (checkPart object cache)).map List.flatten

end Checks

/-! ### Maps of intervals (`rangemap`) -/

structure IntervalEntry (V : Type) where
  start : ℕ
  stop : ℕ
  value : V

/-- The intervals of a map, disjoint, in no order. -/
abbrev IntervalMap (V : Type) := List (IntervalEntry V)

namespace IntervalMap

variable {V : Type}

def overlapping (map : IntervalMap V) (range : ℕ × ℕ) : List V :=
  (map.filter fun entry => entry.start < range.2 ∧ range.1 < entry.stop).map (·.value)

/-- What is left of an interval outside of the range. -/
def outside (range : ℕ × ℕ) (entry : IntervalEntry V) : IntervalMap V :=
  (if entry.start < range.1 then [⟨entry.start, min entry.stop range.1, entry.value⟩] else []) ++
    if range.2 < entry.stop then [⟨max entry.start range.2, entry.stop, entry.value⟩] else []

/-- `RangeMap::insert`, which panics unless the range starts strictly below its end. -/
def insert (map : IntervalMap V) (range : ℕ × ℕ) (value : V) : Option (IntervalMap V) :=
  if range.1 < range.2 then some (⟨range.1, range.2, value⟩ :: map.flatMap (outside range)) else none

end IntervalMap

/-- What `check_overlapping` writes: an object, its range in hundredths, and the key of the map. -/
structure Insertion (Key : Type) where
  id : String
  range : ℕ × ℕ
  key : Key

/-- The maps of `check_overlapping`, and the pairs of objects that overlap. -/
structure Overlaps (Key : Type) where
  rangeMaps : Key → IntervalMap String
  pairs : List (String × String)

variable {Key : Type} [DecidableEq Key]

/-- The other objects on the range are reported, and the object is written into the map. -/
def Overlaps.insert (overlaps : Overlaps Key) (insertion : Insertion Key) : Option (Overlaps Key) := do
  let rangeMap := overlaps.rangeMaps insertion.key
  let others := (rangeMap.overlapping insertion.range).filter (· ≠ insertion.id)
  let newMap ← rangeMap.insert insertion.range insertion.id
  some ⟨Function.update overlaps.rangeMaps insertion.key newMap,
    overlaps.pairs ∪ others.map (insertion.id, ·)⟩

def checkInsertions (newError : String → String → InfraError K) (insertions : List (Insertion Key)) :
    Option (List (InfraError K)) := do
  let overlaps ← insertions.foldlM Overlaps.insert ⟨fun _ => [], []⟩
  some (overlaps.pairs.map fun pair => newError pair.1 pair.2)

def hundredthsRange [Position K] (range : ApplicableDirectionsTrackRange K) : ℕ × ℕ :=
  (Position.hundredths range.beginAt, Position.hundredths range.endAt)

/-! ### Switches -/

namespace Switches

/-- The switch of each endpoint seen so far. -/
structure Context where
  endpointToSwitch : TrackEndpoint → Option String

def Context.default : Context := ⟨fun _ => none⟩

variable (switch : SwitchCache) (cache : InfraCache K)

def checkInvalidRefPorts (_graph : Graph) : Option (List (InfraError K)) :=
  some (switch.ports.filterMap fun port =>
    if (cache.trackSection port.2.track).isNone then
      some (.newInvalidReference ⟨.Switch, switch.objId⟩ ("ports." ++ port.1 ++ ".track")
        ⟨.TrackSection, port.2.track⟩)
    else none)

def checkInvalidRefSwitchType (_graph : Graph) : Option (List (InfraError K)) :=
  some (if (cache.switchType switch.switchType).isNone then
      [.newInvalidReference ⟨.Switch, switch.objId⟩ "switch_type" ⟨.SwitchType, switch.switchType⟩]
    else [])

def checkMatchPortsType (_graph : Graph) : Option (List (InfraError K)) := do
  let matchPorts := switch.ports.map (·.1)
  let switchType ← cache.switchType switch.switchType
  if (∀ port ∈ matchPorts, port ∈ switchType.ports) ∧ ∀ port ∈ switchType.ports, port ∈ matchPorts then
    some []
  else some [.newInvalidSwitchPorts ⟨.Switch, switch.objId⟩ "ports"]

def checkEndpointsUnicity (_cache : InfraCache K) (_graph : Graph) : Option (List (InfraError K)) :=
  some (if (switch.ports.map (·.2)).dedup.length ≠ switch.ports.length then
      [.newNodeEndpointNotUnique switch.objId]
    else [])

def checkOverlapping (_cache : InfraCache K) (_graph : Graph)
    (context : Context) : Option (List (InfraError K) × Context) :=
  match (switch.ports.map (·.2)).find? fun port => (context.endpointToSwitch port).isSome with
  | some port => do
      let other ← context.endpointToSwitch port
      some ([.newOverlappingSwitches ⟨.Switch, switch.objId⟩ other], context)
  | none =>
      some ([], ⟨switch.ports.foldl (fun endpoints port =>
        Function.update endpoints port.2 (some switch.objId)) context.endpointToSwitch⟩)

def objectGenerators : List (ObjectErrorGenerator SwitchCache K Context) :=
  [.NoContext 1 checkInvalidRefPorts, .NoContext 1 checkInvalidRefSwitchType,
    .NoContext 2 checkMatchPortsType, .NoContext 3 checkEndpointsUnicity,
    .WithContext 4 checkOverlapping]

/-- The errors of the switches. -/
def generate : Option (List (InfraError K)) :=
  generateErrors cache.switches cache (Graph.load cache) objectGenerators [] Context.default

end Switches

/-! ### Routes -/

namespace Routes

/-- The tracks that are on a route. -/
structure Context where
  tracksOnRoutes : List String

def Context.default : Context := ⟨[]⟩

def isWaypointRefValid (waypoint : Waypoint) (cache : InfraCache K) : Bool :=
  match waypoint with
  | .Detector id => (cache.detector id).isSome
  | .BufferStop id => (cache.bufferStop id).isSome

variable (route : Route)

/-- One end of a route. -/
def checkWaypointRef (field : String) (waypoint : Waypoint) (cache : InfraCache K) :
    Option (List (InfraError K)) :=
  some (if isWaypointRefValid waypoint cache then []
    else [.newInvalidReference ⟨.Route, route.id⟩ field waypoint.getRef])

variable (cache : InfraCache K)

def checkEntryPointRef (_graph : Graph) : Option (List (InfraError K)) :=
  checkWaypointRef route "entry_point" route.entryPoint cache

def checkExitPointRef (_graph : Graph) : Option (List (InfraError K)) :=
  checkWaypointRef route "exit_point" route.exitPoint cache

def checkReleaseDetectorsRef (_graph : Graph) : Option (List (InfraError K)) :=
  some (route.releaseDetectors.zipIdx.filterMap fun entry =>
    if (cache.detector entry.1).isNone then
      some (.newInvalidReference ⟨.Route, route.id⟩ ("release_detectors." ++ toString entry.2)
        ⟨.Detector, entry.1⟩)
    else none)

/-- One switch of a route and the group it is in. -/
def checkSwitchDirection (entry : String × String) : Option (List (InfraError K)) :=
  let field := "switches_directions." ++ entry.1
  if (cache.switch entry.1).isNone then
    some [.newInvalidReference ⟨.Route, route.id⟩ field ⟨.Switch, entry.1⟩]
  else do
    let switch ← cache.switch entry.1
    match cache.switchType switch.switchType with
    | none => some []
    | some switchType =>
        if (switchType.groups.lookup entry.2).isNone then
          some [.newInvalidGroup ⟨.Route, route.id⟩ field entry.2 switchType.id]
        else some []

def checkSwitchesDirectionsRef (_graph : Graph) : Option (List (InfraError K)) :=
  (route.switchesDirections.mapM (checkSwitchDirection route cache)).map List.flatten

section Path

variable [LinearOrder K]

/-- One release detector of a route and the ranges of its path; of two ranges on a track the last counts. -/
def checkReleaseDetector (route : Route) (path : RoutePath K) (cache : InfraCache K)
    (entry : String × ℕ) : Option (List (InfraError K)) := do
  let detector ← cache.detector entry.1
  let isOnPath := match path.trackRanges.reverse.find? (·.track = detector.track) with
    | some range => decide (range.beginAt ≤ detector.position ∧ detector.position ≤ range.endAt)
    | none => false
  some (if isOnPath then []
    else [.newObjectOutOfPath ⟨.Route, route.id⟩ ("release_detectors." ++ toString entry.2)
      ⟨.Detector, detector.objId⟩])

variable (computeTrackRangesOnRoute : InfraCache K → Route → Graph → Option (RoutePath K))

def checkPath (route : Route) (cache : InfraCache K) (graph : Graph) (context : Context) :
    Option (List (InfraError K) × Context) :=
  match computeTrackRangesOnRoute cache route graph with
  | none => some ([.newInvalidPath ⟨.Route, route.id⟩], context)
  | some path => do
      let switchesOutOfPath := route.switchesDirections.filterMap fun entry =>
        if entry.1 ∈ path.switchesDirections.map (·.switchId) then none
        else some (.newObjectOutOfPath ⟨.Route, route.id⟩ ("switches_directions." ++ entry.1)
          ⟨.Switch, entry.1⟩)
      let detectorsOutOfPath ← route.releaseDetectors.zipIdx.mapM (checkReleaseDetector route path cache)
      some (switchesOutOfPath ++ detectorsOutOfPath.flatten,
        ⟨context.tracksOnRoutes ++ path.trackRanges.map (·.track)⟩)

def checkMissing (cache : InfraCache K) (_graph : Graph) (context : Context) :
    Option (List (InfraError K) × Context) :=
  some ((cache.trackSections.filter fun track => track.objId ∉ context.tracksOnRoutes).map fun track =>
    .newMissingRoute track.objId, context)

def objectGenerators : List (ObjectErrorGenerator Route K Context) :=
  [.NoContext 1 checkEntryPointRef, .NoContext 1 checkExitPointRef,
    .NoContext 1 checkReleaseDetectorsRef, .NoContext 1 checkSwitchesDirectionsRef,
    .WithContext 2 (checkPath computeTrackRangesOnRoute)]

def globalGenerators : List (GlobalErrorGenerator K Context) := [.WithContext checkMissing]

/-- The errors of the routes. -/
def generate (cache : InfraCache K) : Option (List (InfraError K)) :=
  generateErrors cache.routes cache (Graph.load cache) (objectGenerators computeTrackRangesOnRoute)
    globalGenerators Context.default

end Path

end Routes

/-! ### Buffer stops -/

namespace BufferStops

def checkInvalidRef (bufferStop : BufferStopCache K) (cache : InfraCache K) (_graph : Graph) :
    Option (List (InfraError K)) :=
  some (if (cache.trackSection bufferStop.track).isNone then
      [.newInvalidReference ⟨.BufferStop, bufferStop.objId⟩ "track" ⟨.TrackSection, bufferStop.track⟩]
    else [])

variable [Zero K] [LinearOrder K] [Position K]

def checkOutOfRange (bufferStop : BufferStopCache K) (cache : InfraCache K) (_graph : Graph) :
    Option (List (InfraError K)) := do
  let track ← cache.trackSection bufferStop.track
  some (checkPosition ⟨.BufferStop, bufferStop.objId⟩ "position" track bufferStop.track
    bufferStop.position)

def checkOddLocation (bufferStop : BufferStopCache K) (cache : InfraCache K) (graph : Graph) :
    Option (List (InfraError K)) :=
  let isLinkedStart := graph.hasNeighbour ⟨.Begin, bufferStop.track⟩
  let isLinkedEnd := graph.hasNeighbour ⟨.End, bufferStop.track⟩
  let error := InfraError.newOddBufferStopLocation ⟨.BufferStop, bufferStop.objId⟩
  if isLinkedEnd ∧ isLinkedStart then some [error]
  else
    let refs := cache.getTrackRefsType bufferStop.track .BufferStop
    if refs.length = 1 ∨ refs.length = 2 ∧ ¬isLinkedEnd ∧ ¬isLinkedStart then some []
    else do
      let bufferStops ← refs.mapM fun ref => cache.bufferStop ref.objId
      let bufferStops := bufferStops.mergeSort (fun a b => decide (a.position ≤ b.position))
      let first ← bufferStops.head?
      let last ← bufferStops.getLast?
      if (isLinkedStart ∨ first.objId ≠ bufferStop.objId) ∧
          (isLinkedEnd ∨ last.objId ≠ bufferStop.objId) then
        some [error]
      else some []

/-- The buffer stops that are missing on one track. -/
def checkMissingOn (cache : InfraCache K) (graph : Graph) (track : TrackSectionCache K) :
    Option (List (InfraError K)) :=
  let isLinkedStart := graph.hasNeighbour track.getBegin
  let isLinkedEnd := graph.hasNeighbour track.getEnd
  let missing := InfraError.newMissingBufferStop ⟨.TrackSection, track.objId⟩
  if isLinkedStart ∧ isLinkedEnd then some []
  else match cache.getTrackRefsType track.objId .BufferStop with
    | [] => some ((if isLinkedEnd then [] else [missing .End]) ++
        if isLinkedStart then [] else [missing .Begin])
    | [ref] =>
        if isLinkedEnd ∨ isLinkedStart then some []
        else do
          let bufferStop ← cache.bufferStop ref.objId
          if bufferStop.position < Position.half track.length then some [missing .End]
          else some [missing .Begin]
    | _ => some []

def checkMissing (cache : InfraCache K) (graph : Graph) : Option (List (InfraError K)) :=
  (cache.trackSections.mapM (checkMissingOn cache graph)).map List.flatten

def objectGenerators : List (ObjectErrorGenerator (BufferStopCache K) K NoContext) :=
  [.NoContext 1 checkInvalidRef, .NoContext 2 checkOutOfRange, .NoContext 3 checkOddLocation]

def globalGenerators : List (GlobalErrorGenerator K NoContext) := [.NoContext checkMissing]

/-- The errors of the buffer stops. -/
def generate (cache : InfraCache K) : Option (List (InfraError K)) :=
  generateErrors cache.bufferStops cache (Graph.load cache) objectGenerators globalGenerators {}

end BufferStops

/-! ### Speed sections -/

namespace SpeedSections

def checkEmpty (speedSection : SpeedSection K) (_cache : InfraCache K) (_graph : Graph) :
    Option (List (InfraError K)) :=
  checkEmptyField ⟨.SpeedSection, speedSection.id⟩ "track_ranges" speedSection.trackRanges.isEmpty

def checkSpeedSectionTrackRanges [Zero K] [LinearOrder K] (speedSection : SpeedSection K)
    (cache : InfraCache K) (_graph : Graph) : Option (List (InfraError K)) :=
  checkTrackRanges ⟨.SpeedSection, speedSection.id⟩ speedSection.trackRanges cache

def getDirections : ApplicableDirections → List Direction
  | .Both => [.StartToStop, .StopToStart]
  | .StartToStop => [.StartToStop]
  | .StopToStart => [.StopToStart]

/-- The tags a speed section is written under: none for its default speed limit. -/
def tags (speedSection : SpeedSection K) : List (Option String) :=
  (if speedSection.speedLimit.isSome then [none] else []) ++
    speedSection.speedLimitByTag.map fun entry => some entry.1

/-- What one speed section writes, range by range; nothing with the `psl_sncf` extension. -/
def insertions [Position K] (speedSection : SpeedSection K) :
    List (Insertion (String × Option String × Direction)) :=
  if speedSection.hasPslSncf then []
  else speedSection.trackRanges.flatMap fun range =>
    (getDirections range.direction).flatMap fun direction =>
      (tags speedSection).map fun tag =>
        ⟨speedSection.id, hundredthsRange range, (range.track, tag, direction)⟩

def checkOverlapping [Position K] (cache : InfraCache K) (_graph : Graph) :
    Option (List (InfraError K)) :=
  checkInsertions InfraError.newOverlappingSpeedSections (cache.speedSections.flatMap insertions)

variable [Zero K] [LinearOrder K] [Position K]

def objectGenerators : List (ObjectErrorGenerator (SpeedSection K) K NoContext) :=
  [.NoContext 1 checkEmpty, .NoContext 2 checkSpeedSectionTrackRanges]

def globalGenerators : List (GlobalErrorGenerator K NoContext) := [.NoContext checkOverlapping]

/-- The errors of the speed sections. -/
def generate (cache : InfraCache K) : Option (List (InfraError K)) :=
  generateErrors cache.speedSections cache (Graph.load cache) objectGenerators globalGenerators {}

end SpeedSections

/-! ### Electrifications -/

namespace Electrifications

def checkEmpty (electrification : Electrification K) (_cache : InfraCache K) (_graph : Graph) :
    Option (List (InfraError K)) :=
  checkEmptyField ⟨.Electrification, electrification.id⟩ "track_ranges"
    electrification.trackRanges.isEmpty

def checkElectrificationTrackRanges [Zero K] [LinearOrder K] (electrification : Electrification K)
    (cache : InfraCache K) (_graph : Graph) : Option (List (InfraError K)) :=
  checkTrackRanges ⟨.Electrification, electrification.id⟩ electrification.trackRanges cache

/-- What one electrification writes. -/
def insertions [Position K] (electrification : Electrification K) : List (Insertion (String × String)) :=
  electrification.trackRanges.map fun range =>
    ⟨electrification.id, hundredthsRange range, (range.track, electrification.voltage)⟩

def checkOverlapping [Position K] (cache : InfraCache K) (_graph : Graph) :
    Option (List (InfraError K)) :=
  checkInsertions InfraError.newOverlappingElectrifications
    (cache.electrifications.flatMap insertions)

variable [Zero K] [LinearOrder K] [Position K]

def objectGenerators : List (ObjectErrorGenerator (Electrification K) K NoContext) :=
  [.NoContext 1 checkEmpty, .NoContext 2 checkElectrificationTrackRanges]

def globalGenerators : List (GlobalErrorGenerator K NoContext) := [.NoContext checkOverlapping]

/-- The errors of the electrifications. -/
def generate (cache : InfraCache K) : Option (List (InfraError K)) :=
  generateErrors cache.electrifications cache (Graph.load cache) objectGenerators globalGenerators {}

end Electrifications

/-! ### Operational points and level crossings -/

section Parts

variable [Zero K] [LinearOrder K]

namespace OperationalPoints

def checkEmpty (op : OperationalPointCache K) (_cache : InfraCache K) (_graph : Graph) :
    Option (List (InfraError K)) :=
  checkEmptyField ⟨.OperationalPoint, op.objId⟩ "parts" op.parts.isEmpty

def checkOpParts (op : OperationalPointCache K) (cache : InfraCache K) (_graph : Graph) :
    Option (List (InfraError K)) :=
  checkParts ⟨.OperationalPoint, op.objId⟩ op.parts cache

def objectGenerators : List (ObjectErrorGenerator (OperationalPointCache K) K NoContext) :=
  [.NoContext 1 checkEmpty, .NoContext 2 checkOpParts]

end OperationalPoints

namespace LevelCrossings

def checkEmpty (lc : LevelCrossingCache K) (_cache : InfraCache K) (_graph : Graph) :
    Option (List (InfraError K)) :=
  checkEmptyField ⟨.LevelCrossing, lc.objId⟩ "parts" lc.parts.isEmpty

def checkLcParts (lc : LevelCrossingCache K) (cache : InfraCache K) (_graph : Graph) :
    Option (List (InfraError K)) :=
  checkParts ⟨.LevelCrossing, lc.objId⟩ lc.parts cache

def objectGenerators : List (ObjectErrorGenerator (LevelCrossingCache K) K NoContext) :=
  [.NoContext 1 checkEmpty, .NoContext 2 checkLcParts]

end LevelCrossings

end Parts

end Osrd.InfraErrors
