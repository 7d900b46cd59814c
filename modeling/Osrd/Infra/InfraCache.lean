import Osrd.Lib.InvertedIndex
import Mathlib.Data.Rat.Defs

/-! Model of `InfraCache` (`editoast/src/infra_cache/mod.rs` and `object_cache/*.rs`): the objects of an
    infrastructure by type and id, with the objects that refer to each track section.

    An operation answers the cache it leaves behind, also when it fails. The fields of an object that the
    cache stores and that nothing here reads are kept as one value (`Fields`). -/

namespace Osrd.Infra

/-! ### Objects -/

/-- The types of objects. -/
inductive ObjectType
  | TrackSection
  | Signal
  | SpeedSection
  | Detector
  | NeutralSection
  | Switch
  | SwitchType
  | BufferStop
  | Route
  | OperationalPoint
  | Electrification
  | LevelCrossing
deriving DecidableEq

/-- The name of a type, as the errors write it. -/
def ObjectType.toString : ObjectType → String
  | .TrackSection => "TrackSection"
  | .Signal => "Signal"
  | .SpeedSection => "SpeedSection"
  | .Detector => "Detector"
  | .NeutralSection => "NeutralSection"
  | .Switch => "Switch"
  | .SwitchType => "SwitchType"
  | .BufferStop => "BufferStop"
  | .Route => "Route"
  | .OperationalPoint => "OperationalPoint"
  | .Electrification => "Electrification"
  | .LevelCrossing => "LevelCrossing"

/-- A type and an id: ids are unique within a type only. -/
structure ObjectRef where
  objType : ObjectType
  objId : String
deriving DecidableEq

/-- The fields of an object that are stored and not read here, as their JSON text. -/
abbrev Fields := String

/-- Besides the id: `line_code`, `length`, `slopes`, `curves` and `bbox_geo`. -/
structure TrackSectionCache where
  objId : String
  fields : Fields

/-- `fields` are the logical signals. -/
structure SignalCache where
  objId : String
  track : String
  position : ℚ
  fields : Fields

structure DetectorCache where
  objId : String
  track : String
  position : ℚ

structure BufferStopCache where
  objId : String
  track : String
  position : ℚ

/-- A part of a track, with or without directions. -/
structure TrackRange where
  track : String
  fields : Fields

structure Sign where
  track : String
  fields : Fields

/-- The signs of a speed section. -/
structure SpeedSectionPslSncfExtension where
  announcement : List Sign
  z : Sign
  r : List Sign

/-- `fields` are the speed limits and the routes that they are for. -/
structure SpeedSection where
  id : String
  trackRanges : List TrackRange
  pslSncf : Option SpeedSectionPslSncfExtension
  fields : Fields

/-- `fields` is the end of the track. -/
structure TrackEndpoint where
  track : String
  fields : Fields

/-- The end of a track at each port. -/
structure SwitchCache where
  objId : String
  switchType : String
  ports : List (String × TrackEndpoint)

/-- `fields` are the waypoints and the switches of the route. -/
structure Route where
  id : String
  fields : Fields

structure OperationalPointPartCache where
  track : String
  position : ℚ

structure OperationalPointCache where
  objId : String
  parts : List OperationalPointPartCache

/-- Each group with the ports that it connects. -/
structure SwitchType where
  id : String
  ports : List String
  groups : List (String × List (String × String))

/-- `fields` is the voltage. -/
structure Electrification where
  id : String
  trackRanges : List TrackRange
  fields : Fields

/-- The signs of a neutral section. -/
structure NeutralSectionNeutralSncfExtension where
  announcement : List Sign
  exe : Sign
  ends : List Sign
  rev : List Sign

/-- `fields` says whether pantographs are lowered. -/
structure NeutralSection where
  id : String
  announcementTrackRanges : List TrackRange
  trackRanges : List TrackRange
  neutralSncf : Option NeutralSectionNeutralSncfExtension
  fields : Fields

structure LevelCrossingPartCache where
  track : String
  position : ℚ

structure LevelCrossingCache where
  objId : String
  parts : List LevelCrossingPartCache

/-- What the cache stores of an object. -/
inductive ObjectCache
  | TrackSection (track : TrackSectionCache)
  | Signal (signal : SignalCache)
  | SpeedSection (speed : SpeedSection)
  | Switch (switch : SwitchCache)
  | Detector (detector : DetectorCache)
  | BufferStop (bufferStop : BufferStopCache)
  | Route (route : Route)
  | OperationalPoint (op : OperationalPointCache)
  | SwitchType (switchType : SwitchType)
  | Electrification (electrification : Electrification)
  | NeutralSection (neutralSection : NeutralSection)
  | LevelCrossing (levelCrossing : LevelCrossingCache)

/-! ### The objects that can be added -/

/-- An object of the cache: its type and id, the tracks it refers to and what is stored of it. -/
class Cache (T : Type) where
  getType : ObjectType
  getId : T → String
  getTrackReferencedId : T → List String
  getObjectCache : T → ObjectCache

namespace Cache

/-- The reference to an object. -/
def getRef {T : Type} [Cache T] (obj : T) : ObjectRef := ⟨getType T, getId obj⟩

instance : Cache TrackSectionCache where
  getType := .TrackSection
  getId := (·.objId)
  getTrackReferencedId := fun _ => []
  getObjectCache := .TrackSection

instance : Cache SignalCache where
  getType := .Signal
  getId := (·.objId)
  getTrackReferencedId := fun obj => [obj.track]
  getObjectCache := .Signal

instance : Cache SpeedSection where
  getType := .SpeedSection
  getId := (·.id)
  getTrackReferencedId := fun obj =>
    obj.trackRanges.map (·.track) ++
      match obj.pslSncf with
      | some psl => psl.announcement.map (·.track) ++ psl.r.map (·.track) ++ [psl.z.track]
      | none => []
  getObjectCache := .SpeedSection

instance : Cache SwitchCache where
  getType := .Switch
  getId := (·.objId)
  getTrackReferencedId := fun obj => obj.ports.map (·.2.track)
  getObjectCache := .Switch

instance : Cache DetectorCache where
  getType := .Detector
  getId := (·.objId)
  getTrackReferencedId := fun obj => [obj.track]
  getObjectCache := .Detector

instance : Cache BufferStopCache where
  getType := .BufferStop
  getId := (·.objId)
  getTrackReferencedId := fun obj => [obj.track]
  getObjectCache := .BufferStop

instance : Cache Route where
  getType := .Route
  getId := (·.id)
  -- no layer is linked to routes, so their tracks are not kept
  getTrackReferencedId := fun _ => []
  getObjectCache := .Route

instance : Cache OperationalPointCache where
  getType := .OperationalPoint
  getId := (·.objId)
  getTrackReferencedId := fun obj => obj.parts.map (·.track)
  getObjectCache := .OperationalPoint

instance : Cache SwitchType where
  getType := .SwitchType
  getId := (·.id)
  getTrackReferencedId := fun _ => []
  getObjectCache := .SwitchType

instance : Cache Electrification where
  getType := .Electrification
  getId := (·.id)
  getTrackReferencedId := fun obj => obj.trackRanges.map (·.track)
  getObjectCache := .Electrification

instance : Cache NeutralSection where
  getType := .NeutralSection
  getId := (·.id)
  getTrackReferencedId := fun obj =>
    obj.trackRanges.map (·.track) ++ obj.announcementTrackRanges.map (·.track) ++
      match obj.neutralSncf with
      | some ext =>
          ext.exe.track :: (ext.announcement.map (·.track) ++ ext.ends.map (·.track) ++
            ext.rev.map (·.track))
      | none => []
  getObjectCache := .NeutralSection

instance : Cache LevelCrossingCache where
  getType := .LevelCrossing
  getId := (·.objId)
  getTrackReferencedId := fun obj => obj.parts.map (·.track)
  getObjectCache := .LevelCrossing

end Cache

namespace ObjectCache

/-- The reference to a stored object. -/
def getRef : ObjectCache → ObjectRef
  | TrackSection obj => Cache.getRef obj
  | Signal obj => Cache.getRef obj
  | SpeedSection obj => Cache.getRef obj
  | Switch obj => Cache.getRef obj
  | Detector obj => Cache.getRef obj
  | BufferStop obj => Cache.getRef obj
  | Route obj => Cache.getRef obj
  | OperationalPoint obj => Cache.getRef obj
  | SwitchType obj => Cache.getRef obj
  | Electrification obj => Cache.getRef obj
  | NeutralSection obj => Cache.getRef obj
  | LevelCrossing obj => Cache.getRef obj

/-- The tracks that a stored object refers to. -/
def getTrackReferencedId : ObjectCache → List String
  | TrackSection obj => Cache.getTrackReferencedId obj
  | Signal obj => Cache.getTrackReferencedId obj
  | SpeedSection obj => Cache.getTrackReferencedId obj
  | Switch obj => Cache.getTrackReferencedId obj
  | Detector obj => Cache.getTrackReferencedId obj
  | BufferStop obj => Cache.getTrackReferencedId obj
  | Route obj => Cache.getTrackReferencedId obj
  | OperationalPoint obj => Cache.getTrackReferencedId obj
  | SwitchType obj => Cache.getTrackReferencedId obj
  | Electrification obj => Cache.getTrackReferencedId obj
  | NeutralSection obj => Cache.getTrackReferencedId obj
  | LevelCrossing obj => Cache.getTrackReferencedId obj

end ObjectCache

/-- What is stored of an object refers to the tracks of the object. -/
class LawfulCache (T : Type) [Cache T] : Prop where
  tracks_objectCache : ∀ obj : T,
    (Cache.getObjectCache obj).getTrackReferencedId = Cache.getTrackReferencedId obj

/-! ### The cache -/

/-- Why the cache refuses an operation. -/
inductive CacheOperationError
  | ObjectNotFound (objType objId : String)
  | DuplicateIdsProvided (objType objId : String)

/-- An operation on the cache. -/
inductive CacheOperation
  | Create (objectCache : ObjectCache)
  | Update (objectCache : ObjectCache)
  | Delete (objectRef : ObjectRef)

/-- The objects by type and id, and under each track those that refer to it. -/
structure InfraCache where
  trackSectionsRefs : InvertedIndex String ObjectRef
  objects : ObjectType → String → Option ObjectCache
  infraVersion : ℤ

namespace InfraCache

/-- The cache an operation leaves behind and its result. -/
abbrev Outcome := InfraCache × Except CacheOperationError Unit

/-- No objects, at version 0. -/
def default : InfraCache := ⟨InvertedIndex.empty, fun _ _ => none, 0⟩

/-- The object of a reference. -/
def get (s : InfraCache) (r : ObjectRef) : Option ObjectCache := s.objects r.objType r.objId

/-- Puts an object at a reference, or takes it out. -/
def setObject (s : InfraCache) (r : ObjectRef) (obj : Option ObjectCache) : InfraCache :=
  { s with
    objects := Function.update s.objects r.objType
      (Function.update (s.objects r.objType) r.objId obj) }

/-- An object whose id is taken is refused once its references are written. -/
def add {T : Type} [Cache T] (s : InfraCache) (obj : T) : Outcome :=
  let s := { s with
    trackSectionsRefs := s.trackSectionsRefs.insertAll (Cache.getRef obj) (Cache.getTrackReferencedId obj) }
  match s.objects (Cache.getType T) (Cache.getId obj) with
  | some _ => (s, .error (.DuplicateIdsProvided (Cache.getType T).toString (Cache.getId obj)))
  | none => (s.setObject (Cache.getRef obj) (some (Cache.getObjectCache obj)), .ok ())

/-- A track without an entry stops the loop over the references. -/
def applyDelete (s : InfraCache) (objectRef : ObjectRef) : Outcome :=
  let notFound := CacheOperationError.ObjectNotFound objectRef.objType.toString objectRef.objId
  match s.objects objectRef.objType objectRef.objId with
  | none => (s, .error notFound)
  | some objCache =>
      let s := s.setObject objectRef none
      match s.trackSectionsRefs.eraseAll objectRef objCache.getTrackReferencedId with
      | (refs, true) => ({ s with trackSectionsRefs := refs }, .ok ())
      | (refs, false) => ({ s with trackSectionsRefs := refs }, .error notFound)

/-- Adds a stored object. -/
def applyCreate (s : InfraCache) : ObjectCache → Outcome
  | .TrackSection obj => s.add obj
  | .Signal obj => s.add obj
  | .SpeedSection obj => s.add obj
  | .Switch obj => s.add obj
  | .SwitchType obj => s.add obj
  | .Detector obj => s.add obj
  | .BufferStop obj => s.add obj
  | .Route obj => s.add obj
  | .OperationalPoint obj => s.add obj
  | .Electrification obj => s.add obj
  | .NeutralSection obj => s.add obj
  | .LevelCrossing obj => s.add obj

/-- Deletes the object with the id and adds the new one. -/
def applyUpdate (s : InfraCache) (objectCache : ObjectCache) : Outcome :=
  match s.applyDelete objectCache.getRef with
  | (s, .error e) => (s, .error e)
  | (s, .ok ()) => s.applyCreate objectCache

/-- One operation. -/
def applyOperation (s : InfraCache) : CacheOperation → Outcome
  | .Delete objectRef => s.applyDelete objectRef
  | .Update objectCache => s.applyUpdate objectCache
  | .Create objectCache => s.applyCreate objectCache

/-- The operations in turn, up to the first that is refused. -/
def applyOperations (s : InfraCache) : List CacheOperation → Outcome
  | [] => (s, .ok ())
  | op :: operations =>
      match s.applyOperation op with
      | (s, .error e) => (s, .error e)
      | (s, .ok ()) => s.applyOperations operations

/-- Adds the objects in turn, up to the first that is refused. -/
def addAll (s : InfraCache) : List ObjectCache → Outcome
  | [] => (s, .ok ())
  | obj :: objs =>
      match s.applyCreate obj with
      | (s, .error e) => (s, .error e)
      | (s, .ok ()) => s.addAll objs

/-- The order in which the objects of an infrastructure are added. -/
def loadOrder : List ObjectType :=
  [.TrackSection, .Signal, .SpeedSection, .NeutralSection, .Route, .OperationalPoint, .Switch,
    .SwitchType, .Detector, .BufferStop, .Electrification, .LevelCrossing]

/-- The node types that every cache has. -/
def builtinNodes : List ObjectCache :=
  [.SwitchType ⟨"link", ["A", "B"], [("STATIC", [("A", "B")])]⟩,
    .SwitchType ⟨"point_switch", ["A", "B1", "B2"], [("A_B1", [("A", "B1")]), ("A_B2", [("A", "B2")])]⟩,
    .SwitchType ⟨"crossing", ["A1", "A2", "B1", "B2"], [("STATIC", [("A1", "B1"), ("A2", "B2")])]⟩,
    .SwitchType ⟨"single_slip_switch", ["A1", "A2", "B1", "B2"],
      [("STATIC", [("A1", "B1"), ("A2", "B2")]), ("A1_B2", [("A1", "B2")])]⟩,
    .SwitchType ⟨"double_slip_switch", ["A1", "A2", "B1", "B2"],
      [("A1_B1", [("A1", "B1")]), ("A1_B2", [("A1", "B2")]), ("A2_B1", [("A2", "B1")]),
        ("A2_B2", [("A2", "B2")])]⟩]

/-- The cache of the objects of each type and of the built-in nodes, at version 0. -/
def fromObjects (objects : ObjectType → List ObjectCache) : Except CacheOperationError InfraCache :=
  match default.addAll (loadOrder.flatMap objects ++ builtinNodes) with
  | (s, .ok ()) => .ok s
  | (_, .error e) => .error e

end InfraCache

end Osrd.Infra
