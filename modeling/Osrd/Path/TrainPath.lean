import Osrd.Path.LinearRange

/-! Model of a train path (`kt-osrd-path/src/main/kotlin/fr/sncf/osrd/path/implementations/TrainPathImpl.kt`)
    and of its cut at the backtrack locations (`interfaces/TrainPath.kt`).

    A call that throws answers `none`: a `require` that fails, or the first element of a list without any. -/

namespace Osrd.Path

open Option

variable {V R B C : Type}

/-- The lengths of the objects in the infra. -/
structure InfraLengths (R B C : Type) where
  getRouteLength : R → ℤ
  getBlockLength : B → ℤ
  getTrackChunkLength : C → ℤ

/-- The end of the last range. -/
def lengthOf (blocks : List (GenericLinearRange B)) : ℤ := (blocks.getLast?.map (·.pathEnd)).getD 0

def checkRangeList (list : List (GenericLinearRange V)) (objectLength : V → ℤ) (length : ℤ) : Prop :=
  list.IsChain (fun previousRange range => range.pathBegin = previousRange.pathEnd) ∧
    (∀ range ∈ list, 0 ≤ range.objectBegin ∧ range.objectEnd ≤ objectLength range.value) ∧
    list.head?.map (·.pathBegin) = some 0 ∧ list.getLast?.map (·.pathEnd) = some length

instance (list : List (GenericLinearRange V)) (objectLength : V → ℤ) (length : ℤ) :
    Decidable (checkRangeList list objectLength length) :=
  inferInstanceAs (Decidable (_ ∧ _))

/-- The sanity checks of a path. Routes may be unknown, or an empty list. -/
def SanityChecks (infra : InfraLengths R B C) (routes : Option (List (GenericLinearRange R)))
    (blocks : List (GenericLinearRange B)) (chunks : List (GenericLinearRange C))
    (backtrackLocations : List ℤ) : Prop :=
  (∀ list ∈ routes, list ≠ [] → checkRangeList list infra.getRouteLength (lengthOf blocks)) ∧
    checkRangeList blocks infra.getBlockLength (lengthOf blocks) ∧
    checkRangeList chunks infra.getTrackChunkLength (lengthOf blocks) ∧
    backtrackLocations.IsChain (· < ·)

instance (infra : InfraLengths R B C) (routes : Option (List (GenericLinearRange R)))
    (blocks : List (GenericLinearRange B)) (chunks : List (GenericLinearRange C))
    (backtrackLocations : List ℤ) :
    Decidable (SanityChecks infra routes blocks chunks backtrackLocations) :=
  inferInstanceAs (Decidable (_ ∧ _))

/-- A path carries the checks of its constructor. -/
structure TrainPathImpl (R B C : Type) where
  infra : InfraLengths R B C
  routes : Option (List (GenericLinearRange R))
  blocks : List (GenericLinearRange B)
  chunks : List (GenericLinearRange C)
  backtrackLocations : List ℤ
  sanity : SanityChecks infra routes blocks chunks backtrackLocations

namespace TrainPathImpl

def new (infra : InfraLengths R B C) (routes : Option (List (GenericLinearRange R)))
    (blocks : List (GenericLinearRange B)) (chunks : List (GenericLinearRange C))
    (backtrackLocations : List ℤ) : Option (TrainPathImpl R B C) :=
  if h : SanityChecks infra routes blocks chunks backtrackLocations then
    some ⟨infra, routes, blocks, chunks, backtrackLocations, h⟩
  else none

variable (path : TrainPathImpl R B C)

def getLength : ℤ := lengthOf path.blocks

/-- The backtrack locations between the two points are kept as they are. -/
def subPath (fromOffset toOffset : Option ℤ)
    (includeExactStart includeExactEnd : Bool) : Option (TrainPathImpl R B C) := do
  let fromDist := fromOffset.getD 0
  let toDist := toOffset.getD path.getLength
  let routes ← path.routes.mapM fun routes =>
    subRange fromDist toDist routes true includeExactStart includeExactEnd
  let blocks ← subRange fromDist toDist path.blocks true includeExactStart includeExactEnd
  let chunks ← subRange fromDist toDist path.chunks true includeExactStart includeExactEnd
  new path.infra routes blocks chunks
    (path.backtrackLocations.filter fun l => fromDist ≤ l ∧ l ≤ toDist)

/-- A turn of the loop over the backtrack locations. -/
def splitStep (state : ℤ × List (TrainPathImpl R B C))
    (backtrackLocation : ℤ) : Option (ℤ × List (TrainPathImpl R B C)) :=
  if backtrackLocation = state.1 ∨ backtrackLocation = path.getLength then some state
  else do
    let sub ← path.subPath (some state.1) (some backtrackLocation) (decide (state.1 = 0)) false
    return (backtrackLocation, state.2 ++ [sub])

/-- The sub-path after the last location. -/
def splitLast (state : ℤ × List (TrainPathImpl R B C)) : Option (List (TrainPathImpl R B C)) := do
  let last ← path.subPath (some state.1) (some path.getLength) (decide (state.1 = 0)) true
  return state.2 ++ [last]

def splitAtBacktracks : Option (List (TrainPathImpl R B C)) := do
  let state ← path.backtrackLocations.foldlM path.splitStep (0, [])
  path.splitLast state

end TrainPathImpl

/-! ### Sub-paths -/

theorem checkRangeList_iff {list : List (GenericLinearRange V)} {objectLength : V → ℤ} {length : ℤ} :
    checkRangeList list objectLength length ↔ list ≠ [] ∧ Covers list 0 length ∧
      ∀ range ∈ list, 0 ≤ range.objectBegin ∧ range.objectEnd ≤ objectLength range.value := by
  rcases eq_or_ne list [] with rfl | hne
  · exact ⟨fun h => (nomatch h.2.2.1), fun h => absurd rfl h.1⟩
  · rw [checkRangeList, Covers, Tiling.tiles_iff_isChain hne]
    constructor
    · rintro ⟨hchain, hwithin, hfirst, hlast⟩
      exact ⟨hne, ⟨hchain, hfirst, hlast⟩, hwithin⟩
    · rintro ⟨-, ⟨hchain, hfirst, hlast⟩, hwithin⟩
      exact ⟨hchain, hwithin, hfirst, hlast⟩

section SubPath

variable {fromOffset toOffset length : ℤ} {includeExactStart includeExactEnd : Bool}

/-- The part of a list that passes the checks passes them too. -/
theorem subRange_check {ranges : List (GenericLinearRange V)} {objectLength : V → ℤ}
    (h : checkRangeList ranges objectLength length) (hfrom : 0 ≤ fromOffset) (hto : toOffset ≤ length)
    (hft : fromOffset < toOffset ∨
      fromOffset = toOffset ∧ includeExactStart = true ∧ includeExactEnd = true) :
    ∃ parts, subRange fromOffset toOffset ranges true includeExactStart includeExactEnd = some parts ∧
      checkRangeList parts objectLength (toOffset - fromOffset) := by
  obtain ⟨hne, hcovers, hwithin⟩ := checkRangeList_iff.mp h
  obtain ⟨parts, hparts, hpartsCover⟩ := subRange_covers (show fromOffset ≤ toOffset by omega) hcovers
  have hstart : clamp fromOffset toOffset 0 - fromOffset = 0 := by
    rw [clamp]
    omega
  have hstop : clamp fromOffset toOffset length - fromOffset = toOffset - fromOffset := by
    rw [clamp]
    omega
  rw [hstart, hstop] at hpartsCover
  refine ⟨parts, hparts, checkRangeList_iff.mpr ⟨?_, hpartsCover, ?_⟩⟩
  · rcases hft with hlt | ⟨heq, hexactStart, hexactEnd⟩
    · exact hpartsCover.ne_nil (by omega)
    · -- what is at the point is included
      obtain ⟨value, objectOffset, hat⟩ := hcovers.describes hne hfrom (show fromOffset ≤ length by omega)
      rw [← Int.add_zero fromOffset] at hat
      obtain ⟨part, hpart, -⟩ := (subRange_describes hparts).2 (.inr ⟨rfl, hexactStart⟩)
        (.inr ⟨by omega, hexactEnd⟩) hat
      exact List.ne_nil_of_mem hpart
  · intro part hpart
    obtain ⟨r, hr, hisPart⟩ := isPart_of_subRange hparts hpart
    obtain ⟨-, hend⟩ := hwithin r hr
    exact ⟨part.objectBegin_nonneg, hisPart.value ▸ hisPart.objectEnd_le.trans hend⟩

theorem lengthOf_of_check {ranges : List (GenericLinearRange B)} {objectLength : B → ℤ}
    (h : checkRangeList ranges objectLength length) : lengthOf ranges = length := by
  rw [lengthOf, h.2.2.2]
  rfl

variable (path : TrainPathImpl R B C) (hfrom : 0 ≤ fromOffset) (hto : toOffset ≤ path.getLength)
  (hft : fromOffset < toOffset ∨ fromOffset = toOffset ∧ includeExactStart = true ∧ includeExactEnd = true)

namespace TrainPathImpl

/-- What `sub_path` makes of a path. -/
structure IsSubPath (path : TrainPathImpl R B C) (fromOffset toOffset : ℤ)
    (includeExactStart includeExactEnd : Bool) (sub : TrainPathImpl R B C) : Prop where
  length : sub.getLength = toOffset - fromOffset
  routes : path.routes.mapM (fun routes => subRange fromOffset toOffset routes true includeExactStart
    includeExactEnd) = some sub.routes
  blocks : subRange fromOffset toOffset path.blocks true includeExactStart includeExactEnd =
    some sub.blocks
  chunks : subRange fromOffset toOffset path.chunks true includeExactStart includeExactEnd =
    some sub.chunks
  backtrackLocations : sub.backtrackLocations =
    path.backtrackLocations.filter fun l => fromOffset ≤ l ∧ l ≤ toOffset

include hfrom hto hft in
/-- The routes of a sub-path, which may be unknown or empty. -/
theorem subRange_routes :
    ∃ routes, path.routes.mapM (fun routes => subRange fromOffset toOffset routes true
        includeExactStart includeExactEnd) = some routes ∧ ∀ list ∈ routes, list ≠ [] →
        checkRangeList list path.infra.getRouteLength (toOffset - fromOffset) := by
  cases hroutes : path.routes with
  | none => exact ⟨none, rfl, fun _ hmem => (nomatch hmem)⟩
  | some list =>
    rcases eq_or_ne list [] with rfl | hne
    · refine ⟨some [], rfl, fun list hlist hlistNe => ?_⟩
      exact absurd (some.inj hlist).symm hlistNe
    · have hcheck := path.sanity.1 list hroutes hne
      obtain ⟨parts, hparts, hpartsCheck⟩ := subRange_check hcheck hfrom hto hft
      refine ⟨some parts, ?_, fun list hlist _ => some.inj hlist ▸ hpartsCheck⟩
      rw [mapM_some, hparts]
      rfl

include hfrom hto hft in
theorem subPath_spec :
    ∃ sub, path.subPath (some fromOffset) (some toOffset) includeExactStart includeExactEnd = some sub ∧
      path.IsSubPath fromOffset toOffset includeExactStart includeExactEnd sub := by
  obtain ⟨-, hblocks, hchunks, hbacktracks⟩ := path.sanity
  obtain ⟨routes, hroutes, hroutesCheck⟩ := path.subRange_routes hfrom hto hft
  obtain ⟨blocks, hblocks, hblocksCheck⟩ := subRange_check hblocks hfrom hto hft
  obtain ⟨chunks, hchunks, hchunksCheck⟩ := subRange_check hchunks hfrom hto hft
  have hlength := lengthOf_of_check hblocksCheck
  have hsanity : SanityChecks path.infra routes blocks chunks
      (path.backtrackLocations.filter fun l => fromOffset ≤ l ∧ l ≤ toOffset) := by
    rw [SanityChecks, hlength]
    refine ⟨hroutesCheck, hblocksCheck, hchunksCheck, ?_⟩
    rw [List.isChain_iff_pairwise] at hbacktracks ⊢
    exact hbacktracks.filter _
  refine ⟨⟨path.infra, routes, blocks, chunks, _, hsanity⟩, ?_, hlength, hroutes, hblocks, hchunks, rfl⟩
  simp only [subPath, getD_some, hroutes, hblocks, hchunks, bind_eq_bind, bind_some, new, dif_pos hsanity]

end TrainPathImpl

end SubPath

end Osrd.Path
