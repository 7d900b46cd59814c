import Osrd.InfraErrors.Generators

/-! The fixes of operational points and of level crossings (`editoast/src/views/infra/auto_fixes/mod.rs`,
    `operational_point.rs`, `level_crossing.rs`).

    The errors of an object are turned one after the other into operations on its parts, which name a part by
    its index in the object. The operations are sorted so that a later one does not shift the indices of the
    next, written as JSON patches and merged into one. The object of the cache is changed on the side, error
    by error. `none` is a panic: an index that is not there any more, or bounds that are the wrong way
    round. -/

namespace Osrd.InfraErrors

open Infra (ObjectRef)

variable {K Obj Cache : Type}

/-! ### Operations -/

/-- The variants in the order in which they are compared. -/
inductive OrderedOperation (K : Type)
  | RemoveTrackRef (trackRefs : ℕ)
  | UpdatePosition (trackRefs : ℕ) (newPosition : K)
  | Delete
deriving DecidableEq

inductive Operation (Obj K : Type)
  | Create (object : Obj)
  | Update (object : ObjectRef) (railjsonPatch : List (JsonPatch.Operation K))
  | Delete (object : ObjectRef)

inductive CacheOperation (Cache : Type)
  | Update (object : Cache)
  | Delete (object : ObjectRef)

abbrev Fix (Obj Cache K : Type) := Operation Obj K × CacheOperation Cache

section Reduce

/- `patch_infra_object`: a patch applied to an object that is to be created, when it can be. -/
variable (patchInfraObject : Obj → List (JsonPatch.Operation K) → Option Obj)

def reduceOperation : Option (Operation Obj K) → Option (Operation Obj K) → Option (Operation Obj K)
  | some (.Create _), some (.Create _) => none
  | some (.Create _), some (.Delete _) => none
  | some (.Update ..), some (.Create _) => none
  | some (.Delete _), some (.Create _) => none
  | some (.Create object), some (.Update _ railjsonPatch) =>
      (patchInfraObject object railjsonPatch).map .Create
  | some (.Delete object), some (.Delete _) => some (.Delete object)
  | some (.Delete object), some (.Update ..) => some (.Delete object)
  | some (.Update ..), some (.Delete object) => some (.Delete object)
  | some (.Update object patch1), some (.Update _ patch2) => some (.Update object (patch1 ++ patch2))
  | none, _ => none
  | _, none => none

/-- `.map(Some).reduce(reduce_operation).flatten()`. -/
def reduceOperations : List (Operation Obj K) → Option (Operation Obj K)
  | [] => none
  | operation :: operations =>
      (operations.map some).foldl (reduceOperation patchInfraObject) (some operation)

end Reduce

/-- The patch of one operation on the parts of the object. -/
def OrderedOperation.toOperation (object : ObjectRef) : OrderedOperation K → Operation Obj K
  | .RemoveTrackRef trackRefs => .Update object [.remove [.key "parts"] (.index trackRefs)]
  | .UpdatePosition trackRefs newPosition =>
      .Update object [.replace [.key "parts", .index trackRefs, .key "position"] (.num newPosition)]
  | .Delete => .Delete object

section Fixes

variable [Zero K] [LinearOrder K]

/-- `a ≤ b`, as derived. -/
def OrderedOperation.le : OrderedOperation K → OrderedOperation K → Bool
  | .RemoveTrackRef i, .RemoveTrackRef j => i ≤ j
  | .RemoveTrackRef _, _ => true
  | .UpdatePosition .., .RemoveTrackRef _ => false
  | .UpdatePosition i p, .UpdatePosition j q => i < j ∨ i = j ∧ p ≤ q
  | .UpdatePosition .., .Delete => true
  | .Delete, .Delete => true
  | .Delete, _ => false

/-! ### The errors of one object -/

/-- `f64::clamp`, which panics when the bounds are the wrong way round. -/
def clamp (position lower upper : K) : Option K :=
  if lower ≤ upper then
    some (if position < lower then lower else if upper < position then upper else position)
  else none

/-- The first part on the track, with its index. -/
def findPart (parts : List (PartCache K)) (trackId : String) : Option (PartCache K × ℕ) :=
  parts.zipIdx.find? fun entry => entry.1.track = trackId

def invalidPartToOrderedOperation (parts : List (PartCache K)) (object : ObjectRef) :
    Option (OrderedOperation K) :=
  (findPart parts object.objId).map fun entry => .RemoveTrackRef entry.2

/-- Also writes the position into the new parts, at the index the part has in the old ones. -/
def outOfRangePartToOrderedOperation (parts newParts : List (PartCache K)) (object : ObjectRef)
    (expectedRange : K × K) : Option (List (PartCache K) × Option (OrderedOperation K)) :=
  match findPart parts object.objId with
  | none => some (newParts, none)
  | some (part, trackRefs) => do
      let newPosition ← clamp part.position expectedRange.1 expectedRange.2
      if trackRefs < newParts.length then
        some (newParts.modify trackRefs fun part => { part with position := newPosition },
          some (.UpdatePosition trackRefs newPosition))
      else none

/-- One error: the new parts, and the operation if it can be fixed. -/
def fixError (parts newParts : List (PartCache K)) (error : InfraError K) :
    Option (List (PartCache K) × Option (OrderedOperation K)) :=
  match error.subType with
  | .EmptyObject => some (newParts, some .Delete)
  | .InvalidReference reference =>
      if reference.objType = .TrackSection then
        some (newParts.filter (·.track ≠ reference.objId), invalidPartToOrderedOperation parts reference)
      else some (newParts, none)
  | .OutOfRange _ expectedRange reference =>
      if reference.objType = .TrackSection then
        outOfRangePartToOrderedOperation parts newParts reference expectedRange
      else some (newParts, none)
  | _ => some (newParts, none)

def fixErrors (parts : List (PartCache K)) :
    List (InfraError K) → List (PartCache K) → Option (List (PartCache K) × List (OrderedOperation K))
  | [], newParts => some (newParts, [])
  | error :: errors, newParts => do
      let (newParts, operation) ← fixError parts newParts error
      let (newParts, operations) ← fixErrors parts errors newParts
      some (newParts, operation.toList ++ operations)

/-- `.unique().sorted_by_key(Reverse)`. -/
def sortOperations (operations : List (OrderedOperation K)) : List (OrderedOperation K) :=
  operations.eraseDups.mergeSort fun a b => b.le a

variable (patchInfraObject : Obj → List (JsonPatch.Operation K) → Option Obj)

/-- The fix of an object with these parts, if there is one; `rebuild` is the object with other parts. -/
def fixParts (object : ObjectRef) (parts : List (PartCache K)) (rebuild : List (PartCache K) → Cache)
    (errors : List (InfraError K)) : Option (Option (Fix Obj Cache K)) := do
  let (newParts, operations) ← fixErrors parts errors parts
  match reduceOperations patchInfraObject ((sortOperations operations).map (·.toOperation object)) with
  | none => some none
  | some (.Update object patch) => some (some (.Update object patch, .Update (rebuild newParts)))
  | some (.Delete object') => some (some (.Delete object', .Delete object))
  | some (.Create _) => none

def fixOperationalPoint (operationalPoint : OperationalPointCache K) (errors : List (InfraError K)) :
    Option (Option (Fix Obj (OperationalPointCache K) K)) :=
  fixParts patchInfraObject ⟨.OperationalPoint, operationalPoint.objId⟩ operationalPoint.parts
    (fun parts => { operationalPoint with parts := parts }) errors

def fixLevelCrossing (levelCrossing : LevelCrossingCache K) (errors : List (InfraError K)) :
    Option (Option (Fix Obj (LevelCrossingCache K) K)) :=
  fixParts patchInfraObject ⟨.LevelCrossing, levelCrossing.objId⟩ levelCrossing.parts
    (fun parts => { levelCrossing with parts := parts }) errors

end Fixes

end Osrd.InfraErrors
