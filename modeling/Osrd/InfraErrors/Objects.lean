import Osrd.Infra.InfraCache
import Osrd.Infra.SplitRanges

/-! The objects of an infrastructure with what the error generators read of them
    (`editoast/src/infra_cache/object_cache/*.rs`, `editoast/schemas/src/infra/*.rs`), the graph of their
    tracks (`infra_cache/graph.rs`) and the errors (`generated_data/error/infra_error.rs`).

    Hash tables are lists, in the order in which they are visited; any order is one of the lists. Positions
    and lengths are of any type with the operations the checks use, floating-point numbers included. -/

namespace Osrd.InfraErrors

open Infra (ObjectType ObjectRef ApplicableDirectionsTrackRange DirectionalTrackRange)

/-- What the checks compute with positions, beside comparing them: halves, and hundredths
    (`(position * 100.) as u64`). -/
class Position (K : Type) where
  half : K → K
  hundredths : K → ℕ

/-! ### Objects -/

/-- An end of a track section. -/
inductive Endpoint
  | Begin
  | End
deriving DecidableEq

/-- What a port of a switch is linked to. -/
structure TrackEndpoint where
  endpoint : Endpoint
  track : String
deriving DecidableEq

/-- A track section, from position 0 to its length. -/
structure TrackSectionCache (K : Type) where
  objId : String
  length : K

/-- The endpoint at position 0. -/
def TrackSectionCache.getBegin {K : Type} (track : TrackSectionCache K) : TrackEndpoint :=
  ⟨.Begin, track.objId⟩

/-- The endpoint at the length. -/
def TrackSectionCache.getEnd {K : Type} (track : TrackSectionCache K) : TrackEndpoint :=
  ⟨.End, track.objId⟩

/-- A point object: a track by its id, and a position on it. -/
structure BufferStopCache (K : Type) where
  objId : String
  track : String
  position : K

/-- A point object, as a buffer stop. -/
structure DetectorCache (K : Type) where
  objId : String
  track : String
  position : K

/-- The ports of a switch are named as in its type. -/
structure SwitchCache where
  objId : String
  switchType : String
  ports : List (String × TrackEndpoint)

/-- Two ports that a group of a switch type connects. -/
structure SwitchPortConnection where
  src : String
  dst : String

/-- A group is a position of the switch: the ports that are connected in it. -/
structure SwitchType where
  id : String
  ports : List String
  groups : List (String × List SwitchPortConnection)

/-- Where a route starts or ends. -/
inductive Waypoint
  | BufferStop (id : String)
  | Detector (id : String)

/-- The object that a waypoint is. -/
def Waypoint.getRef : Waypoint → ObjectRef
  | BufferStop id => ⟨.BufferStop, id⟩
  | Detector id => ⟨.Detector, id⟩

/-- The directions are the groups of the switches along the route. -/
structure Route where
  id : String
  entryPoint : Waypoint
  exitPoint : Waypoint
  releaseDetectors : List String
  switchesDirections : List (String × String)

/-- A switch that a route goes through, in one of its groups. -/
structure SwitchDirection where
  switchId : String
  groupId : String

/-- The tracks and switches that the directions of a route lead through. -/
structure RoutePath (K : Type) where
  trackRanges : List (DirectionalTrackRange K)
  switchesDirections : List SwitchDirection

/-- Of the extension only whether it is there. -/
structure SpeedSection (K : Type) where
  id : String
  speedLimit : Option K
  speedLimitByTag : List (String × K)
  trackRanges : List (ApplicableDirectionsTrackRange K)
  hasPslSncf : Bool

/-- The ranges that have one voltage. -/
structure Electrification (K : Type) where
  id : String
  voltage : String
  trackRanges : List (ApplicableDirectionsTrackRange K)

/-- A part of an operational point or of a level crossing. -/
structure PartCache (K : Type) where
  track : String
  position : K
deriving DecidableEq

/-- An operational point: its parts are on any tracks. -/
structure OperationalPointCache (K : Type) where
  objId : String
  parts : List (PartCache K)

/-- A level crossing, with a part on each track that it crosses. -/
structure LevelCrossingCache (K : Type) where
  objId : String
  parts : List (PartCache K)

/-! ### The cache -/

/-- The objects by type, and for each track the objects that refer to it. -/
structure InfraCache (K : Type) where
  trackSections : List (TrackSectionCache K)
  bufferStops : List (BufferStopCache K)
  detectors : List (DetectorCache K)
  switches : List SwitchCache
  switchTypes : List SwitchType
  routes : List Route
  speedSections : List (SpeedSection K)
  electrifications : List (Electrification K)
  trackSectionsRefs : String → List ObjectRef

namespace InfraCache

variable {K : Type} (cache : InfraCache K) (id : String)

/-- The track section with this id. -/
def trackSection : Option (TrackSectionCache K) := cache.trackSections.find? (·.objId = id)

/-- The buffer stop with this id. -/
def bufferStop : Option (BufferStopCache K) := cache.bufferStops.find? (·.objId = id)

/-- The detector with this id. -/
def detector : Option (DetectorCache K) := cache.detectors.find? (·.objId = id)

/-- The switch with this id. -/
def switch : Option SwitchCache := cache.switches.find? (·.objId = id)

/-- The switch type with this id. -/
def switchType : Option SwitchType := cache.switchTypes.find? (·.id = id)

/-- The objects of one type that refer to the track. -/
def getTrackRefsType (trackId : String) (objType : ObjectType) : List ObjectRef :=
  (cache.trackSectionsRefs trackId).filter (·.objType = objType)

end InfraCache

/-! ### The graph of the tracks -/

/-- The neighbours of each endpoint, by the group of the switch. -/
structure Graph where
  links : TrackEndpoint → List (String × TrackEndpoint)

namespace Graph

/-- The graph without links. -/
def default : Graph := ⟨fun _ => []⟩

/-- `HashMap::insert` on the groups of one endpoint. -/
def insertGroup (group : String) (dst : TrackEndpoint) :
    List (String × TrackEndpoint) → List (String × TrackEndpoint)
  | [] => [(group, dst)]
  | (group', dst') :: groups =>
      if group' = group then (group', dst) :: groups else (group', dst') :: insertGroup group dst groups

/-- A link in one direction. -/
def link (graph : Graph) (group : String) (src dst : TrackEndpoint) : Graph :=
  ⟨Function.update graph.links src (insertGroup group dst (graph.links src))⟩

/-- The two links of a connection between ports that the switch has. -/
def linkConnection (switch : SwitchCache) (group : String) (graph : Graph)
    (connection : SwitchPortConnection) : Graph :=
  match switch.ports.lookup connection.src, switch.ports.lookup connection.dst with
  | some src, some dst => (graph.link group src dst).link group dst src
  | _, _ => graph

/-- The links of every group of the switch; a switch of an unknown type has none. -/
def linkSwitch {K : Type} (cache : InfraCache K) (graph : Graph) (switch : SwitchCache) : Graph :=
  match cache.switchType switch.switchType with
  | none => graph
  | some switchType =>
      switchType.groups.foldl
        (fun graph group => group.2.foldl (linkConnection switch group.1) graph) graph

/-- The graph of all switches. -/
def load {K : Type} (cache : InfraCache K) : Graph := cache.switches.foldl (linkSwitch cache) default

/-- Some switch is linked to the endpoint. -/
def hasNeighbour (graph : Graph) (endpoint : TrackEndpoint) : Bool := !(graph.links endpoint).isEmpty

end Graph

/-! ### Errors -/

/-- What an error tells, beside the object and the field. -/
inductive InfraErrorType (K : Type)
  | EmptyObject
  | InvalidGroup (group switchType : String)
  | InvalidReference (reference : ObjectRef)
  | InvalidRoute
  | InvalidSwitchPorts
  | MissingRoute
  | MissingBufferStop (endpoint : Endpoint)
  | NodeEndpointsNotUnique
  | ObjectOutOfPath (reference : ObjectRef)
  | OddBufferStopLocation
  | OutOfRange (position : K) (expectedRange : K × K) (reference : ObjectRef)
  | OverlappingElectrifications (reference : ObjectRef)
  | OverlappingSpeedSections (reference : ObjectRef)
  | OverlappingSwitches (reference : ObjectRef)
deriving DecidableEq

/-- An error, or a warning, on a field of an object. -/
structure InfraError (K : Type) where
  object : ObjectRef
  field : Option String
  isWarning : Bool
  subType : InfraErrorType K
deriving DecidableEq

namespace InfraError

variable {K : Type} (object : ObjectRef) (field : String)

/-- The field refers to an object that there is not. -/
def newInvalidReference (reference : ObjectRef) : InfraError K :=
  ⟨object, some field, false, .InvalidReference reference⟩

/-- The position is not in the range of the object it is on. -/
def newOutOfRange (position : K) (expectedRange : K × K) (reference : ObjectRef) : InfraError K :=
  ⟨object, some field, false, .OutOfRange position expectedRange reference⟩

/-- The directions of a route lead nowhere. -/
def newInvalidPath : InfraError K := ⟨object, none, false, .InvalidRoute⟩

/-- The field is an empty list. -/
def newEmptyObject : InfraError K :=
  ⟨object, some field, true, .EmptyObject⟩

/-- The object is not on the path of the route. -/
def newObjectOutOfPath (route : ObjectRef) (field : String) (reference : ObjectRef) : InfraError K :=
  ⟨route, some field, false, .ObjectOutOfPath reference⟩

/-- No route is on the track. -/
def newMissingRoute (trackId : String) : InfraError K :=
  ⟨⟨.TrackSection, trackId⟩, none, true, .MissingRoute⟩

/-- Two ports of the switch are at one endpoint. -/
def newNodeEndpointNotUnique (switchId : String) : InfraError K :=
  ⟨⟨.Switch, switchId⟩, none, false, .NodeEndpointsNotUnique⟩

/-- The ports are not those of the switch type. -/
def newInvalidSwitchPorts : InfraError K :=
  ⟨object, some field, false, .InvalidSwitchPorts⟩

/-- The switch type has no such group. -/
def newInvalidGroup (field group switchType : String) : InfraError K :=
  ⟨object, some field, false, .InvalidGroup group switchType⟩

/-- The end of a track is linked to nothing, and has no buffer stop. -/
def newMissingBufferStop (endpoint : Endpoint) : InfraError K :=
  ⟨object, none, true, .MissingBufferStop endpoint⟩

/-- A buffer stop that protects no end of the infrastructure, or not alone. -/
def newOddBufferStopLocation : InfraError K :=
  ⟨object, none, true, .OddBufferStopLocation⟩

/-- The error is on the object with the greater id, and refers to the other one. -/
def newOverlappingSpeedSections (sc1 sc2 : String) : InfraError K :=
  let (sc1, sc2) := if sc2 < sc1 then (sc2, sc1) else (sc1, sc2)
  ⟨⟨.SpeedSection, sc2⟩, none, true, .OverlappingSpeedSections ⟨.SpeedSection, sc1⟩⟩

/-- As for speed sections. -/
def newOverlappingElectrifications (sc1 sc2 : String) : InfraError K :=
  let (sc1, sc2) := if sc2 < sc1 then (sc2, sc1) else (sc1, sc2)
  ⟨⟨.Electrification, sc2⟩, none, true, .OverlappingElectrifications ⟨.Electrification, sc1⟩⟩

def newOverlappingSwitches (other : String) : InfraError K :=
  ⟨object, none, false, .OverlappingSwitches ⟨.Switch, other⟩⟩

end InfraError

end Osrd.InfraErrors
