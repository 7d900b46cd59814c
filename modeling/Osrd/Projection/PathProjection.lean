import Osrd.Infra.SplitRanges
import Osrd.Lib.Partial
import Osrd.Lib.PartitionPoint
import Mathlib.Data.Rat.Floor

/-! Model of `PathProjection` (`editoast/src/views/path/projection.rs`) and of the ranges of
    `editoast/core_client/src/pathfinding.rs`: positions along a path of track ranges, locations on its
    tracks, and what another list of ranges has in common with the path.

    Positions and offsets are natural numbers (in mm). A call that panics answers `none`, a subtraction
    below zero included. -/

namespace Osrd.Projection

open Infra (Direction)
open Partial (checkedSub)
open List Function Option

/-! ### Ranges -/

/-- A distance in metres, rounded to millimetres. -/
def toMillimeters (metres : ℚ) : ℕ := (round (metres * 1000)).toNat

structure TrackRange where
  trackSection : String
  beginAt : ℕ
  endAt : ℕ
  direction : Direction

structure TrackOffset where
  track : String
  offset : ℕ
deriving DecidableEq

structure TrackRangeOffset where
  trackRange : TrackRange
  offset : ℕ

namespace TrackRange

/-- The offset where the range starts in its direction. -/
def start (r : TrackRange) : ℕ := if r.direction = .StartToStop then r.beginAt else r.endAt

/-- The offset where the range stops in its direction. -/
def stop (r : TrackRange) : ℕ := if r.direction = .StartToStop then r.endAt else r.beginAt

def length (r : TrackRange) : Option ℕ := checkedSub r.endAt r.beginAt

def offset (r : TrackRange) (offset : ℕ) : Option TrackRangeOffset := do
  let length ← r.length
  if offset ≤ length then return ⟨r, offset⟩ else none

end TrackRange

def TrackRangeOffset.asTrackOffset (o : TrackRangeOffset) : Option TrackOffset :=
  if o.trackRange.direction = .StartToStop then
    some ⟨o.trackRange.trackSection, o.offset + o.trackRange.beginAt⟩
  else do
    let offset ← checkedSub o.trackRange.endAt o.offset
    return ⟨o.trackRange.trackSection, offset⟩

/-! ### The projection -/

structure PathProjection where
  path : List TrackRange
  /-- The position of each track of the path. -/
  mapPosition : String → Option ℕ
  /-- The index of each track of the path. -/
  trackIndex : String → Option ℕ
  length : ℕ

/-- The location of a position, on one track or at the limit of two. -/
inductive TrackLocationFromPath
  | One (location : TrackOffset)
  | Two (first second : TrackOffset)

def TrackLocationFromPath.locations : TrackLocationFromPath → List TrackOffset
  | One location => [location]
  | Two first second => [first, second]

variable (s : PathProjection)

namespace PathProjection

/-- The loop of `new`; a track that occurs twice panics. -/
def insertAll : (index : ℕ) → List TrackRange → PathProjection → Option PathProjection
  | _, [], s => some s
  | index, r :: rs, s =>
      if (s.trackIndex r.trackSection).isSome then none
      else do
        let length ← r.length
        insertAll (index + 1) rs { s with
          trackIndex := update s.trackIndex r.trackSection (some index)
          mapPosition := update s.mapPosition r.trackSection (some s.length)
          length := s.length + length }

def new (path : List TrackRange) : Option PathProjection :=
  insertAll 0 path ⟨path, fun _ => none, fun _ => none, 0⟩

def getTrackRange (trackSection : String) : Option TrackRange := do
  let index ← s.trackIndex trackSection
  s.path[index]?

/-- A track that has a position has a range, and the offset is in the range, so nothing panics. -/
def getPosition (location : TrackOffset) : Option ℕ := do
  let basePosition ← s.mapPosition location.track
  let trackRange ← s.getTrackRange location.track
  if location.offset < trackRange.beginAt ∨ trackRange.endAt < location.offset then none
  else if trackRange.direction = .StartToStop then
    return basePosition + location.offset - trackRange.beginAt
  else return basePosition + trackRange.endAt - location.offset

/-- Whether the range at an index starts after the position. -/
def startsAfter (position mid : ℕ) : Option Bool := do
  let midTrackRange ← s.path[mid]?
  let midPosition ← s.mapPosition midTrackRange.trackSection
  return position < midPosition

def getLocation (position : ℕ) : Option TrackLocationFromPath :=
  if s.length < position then none
  else do
    let last ← checkedSub s.path.length 1
    let index ← PartitionPoint.lastNotAbove (s.startsAfter position) s.path.length 0 last
    let found ← s.path[index]?
    let foundPosition ← s.mapPosition found.trackSection
    let foundLength ← found.length
    let trackRangeOffset ← found.offset (← checkedSub position foundPosition)
    let hasPrev := decide (trackRangeOffset.offset = 0 ∧ 0 < index)
    let hasNext := !hasPrev && decide (trackRangeOffset.offset = foundLength ∧ index < last)
    let firstTrackLoc ← trackRangeOffset.asTrackOffset
    if !hasPrev && !hasNext then return .One firstTrackLoc
    else if hasNext then
      let trackRange ← s.path[index + 1]?
      return .Two firstTrackLoc ⟨trackRange.trackSection, trackRange.start⟩
    else
      let trackRange ← s.path[index - 1]?
      return .Two firstTrackLoc ⟨trackRange.trackSection, trackRange.stop⟩

end PathProjection

/-! ### Intersections -/

/-- From `start` to `end` on the path of the ranges. -/
structure Intersection where
  startAt : ℕ
  endAt : ℕ
deriving DecidableEq

structure IntersectionBuilder where
  start : Option ℕ
  current : ℕ
  intersections : List Intersection

variable (b : IntersectionBuilder)

namespace IntersectionBuilder

def new : IntersectionBuilder := ⟨none, 0, []⟩

/-- An intersection that is empty, or that ends before it starts, panics. -/
def finish : Option IntersectionBuilder :=
  match b.start with
  | none => some b
  | some start =>
      if start = b.current ∨ b.current < start then none
      else some { b with start := none, intersections := b.intersections ++ [⟨start, b.current⟩] }

def startNewIntersection (startPos : ℕ) : Option IntersectionBuilder :=
  if b.start.isSome then none else some { b with start := some startPos, current := startPos }

def growIntersection (amount : ℕ) : IntersectionBuilder :=
  { b with current := b.current + amount }

end IntersectionBuilder

namespace PathProjection

/-- What the loop over the ranges carries. -/
structure Scan where
  nextPos : ℕ
  pathTrackIndex : ℕ
  builder : IntersectionBuilder

/-- The absolute difference of two indices. -/
def indexDistance (i j : ℕ) : ℕ := ((i : ℤ) - (j : ℤ)).natAbs

/-- A track that is not next to the last one on the path ends the intersection. -/
def finishUnlessNext (dist : ℕ) : Option IntersectionBuilder :=
  if dist ≠ 1 then b.finish else some b

/-- Starts an intersection where the shared part of the range does, unless there is one. -/
def startIfNone (trackRange : TrackRange)
    (currentPos offsetBegin offsetEnd : ℕ) : Option IntersectionBuilder :=
  if b.start.isSome then some b
  else if trackRange.direction = .StartToStop then
    (checkedSub (currentPos + offsetBegin) trackRange.beginAt).bind b.startNewIntersection
  else (checkedSub (currentPos + trackRange.endAt) offsetEnd).bind b.startNewIntersection

/-- A turn of the loop over the ranges, for a range on a track of the path. -/
def scanShared (scan : Scan) (trackRange projTrackRange : TrackRange) (currentPathIndex nextPos : ℕ) :
    Option Scan := do
  let b ← finishUnlessNext scan.builder (indexDistance currentPathIndex scan.pathTrackIndex)
  let offsetBegin := max trackRange.beginAt projTrackRange.beginAt
  let offsetEnd := min trackRange.endAt projTrackRange.endAt
  if offsetEnd ≤ offsetBegin then
    let b ← b.finish
    return ⟨nextPos, currentPathIndex, b⟩
  else
    let b ← startIfNone b trackRange scan.nextPos offsetBegin offsetEnd
    return ⟨nextPos, currentPathIndex, b.growIntersection (offsetEnd - offsetBegin)⟩

/-- A turn of the loop over the ranges. -/
def scanRange (scan : Scan) (trackRange : TrackRange) : Option Scan := do
  let length ← trackRange.length
  let nextPos := scan.nextPos + length
  match s.getTrackRange trackRange.trackSection with
  | none =>
      let b ← scan.builder.finish
      return { scan with nextPos := nextPos, builder := b }
  | some projTrackRange =>
      let currentPathIndex ← s.trackIndex projTrackRange.trackSection
      scanShared scan trackRange projTrackRange currentPathIndex nextPos

def getIntersections (trackRanges : List TrackRange) : Option (List Intersection) := do
  let scan ← trackRanges.foldlM s.scanRange ⟨0, 0, .new⟩
  let builder ← scan.builder.finish
  return builder.intersections

end PathProjection

/-! ### Paths -/

/-- A path of pairwise distinct tracks, each along a part of it that is not empty. -/
structure ValidPath (path : List TrackRange) : Prop where
  distinct : (path.map (·.trackSection)).Nodup
  ordered : ∀ r ∈ path, r.beginAt < r.endAt

/-- The length of a range. -/
def TrackRange.extent (r : TrackRange) : ℕ := r.endAt - r.beginAt

variable {r : TrackRange}

theorem TrackRange.length_eq (h : r.beginAt ≤ r.endAt) : r.length = some r.extent :=
  Partial.checkedSub_of_le h

/-- The position where the range at an index starts. -/
def startOf (path : List TrackRange) (i : ℕ) : ℕ := ((path.take i).map (·.extent)).sum

variable {path : List TrackRange}

theorem startOf_succ {i : ℕ} (h : path[i]? = some r) :
    startOf path (i + 1) = startOf path i + r.extent := by
  rw [startOf, take_add_one, h]
  simp [startOf]

theorem startOf_append {path rest : List TrackRange} {i : ℕ} (h : i ≤ path.length) :
    startOf (path ++ rest) i = startOf path i := by
  rw [startOf, take_append_of_le_length h]
  rfl

theorem startOf_mono (path : List TrackRange) : Monotone (startOf path) := by
  refine monotone_nat_of_le_succ fun i => ?_
  rw [startOf, startOf, take_add_one, map_append, sum_append]
  exact Nat.le_add_right _ _

theorem ValidPath.startOf_lt (h : ValidPath path) {i j : ℕ} (hr : path[i]? = some r) (hij : i < j) :
    startOf path i < startOf path j := by
  have hlen : 0 < r.extent := Nat.sub_pos_of_lt (h.ordered r (mem_of_getElem? hr))
  have hmono := startOf_mono path (show i + 1 ≤ j from hij)
  rw [startOf_succ hr] at hmono
  omega

namespace PathProjection

/-- The maps and the length that the ranges of a path give. -/
structure Indexes (s : PathProjection) (path : List TrackRange) : Prop where
  index_iff : ∀ track i, s.trackIndex track = some i ↔ ∃ r, path[i]? = some r ∧ r.trackSection = track
  position : ∀ track, s.mapPosition track = (s.trackIndex track).map (startOf path)
  length : s.length = startOf path path.length

theorem Indexes.index_lt {s : PathProjection} (h : s.Indexes path) {track : String} {i : ℕ}
    (hi : s.trackIndex track = some i) : i < path.length := by
  obtain ⟨r, hr, -⟩ := (h.index_iff track i).mp hi
  exact (List.getElem?_eq_some_iff.mp hr).1

theorem Indexes.insert {s : PathProjection} (h : s.Indexes path)
    (hfresh : s.trackIndex r.trackSection = none) : Indexes { s with
      trackIndex := update s.trackIndex r.trackSection (some path.length)
      mapPosition := update s.mapPosition r.trackSection (some s.length)
      length := s.length + r.extent } (path ++ [r]) where
  index_iff track i := by
    rcases eq_or_ne track r.trackSection with rfl | hne
    · simp only [update_self, Option.some.injEq]
      constructor
      · rintro rfl
        exact ⟨r, by simp, rfl⟩
      · rintro ⟨r', hr', htrack⟩
        rw [getElem?_append] at hr'
        split at hr'
        · -- the track would be there already
          have hsome := (h.index_iff _ i).mpr ⟨r', hr', htrack⟩
          exact nomatch hfresh.symm.trans hsome
        · have := (List.getElem?_eq_some_iff.mp hr').1
          simp only [List.length_singleton] at this
          omega
    · simp only [update_of_ne hne]
      rw [h.index_iff]
      constructor
      · rintro ⟨r', hr', htrack⟩
        have hi := (List.getElem?_eq_some_iff.mp hr').1
        exact ⟨r', by rw [List.getElem?_append_left hi, hr'], htrack⟩
      · rintro ⟨r', hr', htrack⟩
        rw [getElem?_append] at hr'
        split at hr'
        · exact ⟨r', hr', htrack⟩
        · have hmem := mem_of_getElem? hr'
          exact absurd (mem_singleton.mp hmem ▸ htrack).symm hne
  position track := by
    rcases eq_or_ne track r.trackSection with rfl | hne
    · simp only [update_self, map_some]
      rw [startOf_append le_rfl, h.length]
    · simp only [update_of_ne hne]
      rw [h.position]
      cases hi : s.trackIndex track with
      | none => rfl
      | some i => rw [map_some, map_some, startOf_append (h.index_lt hi).le]
  length := by
    have hlast : (path ++ [r])[path.length]? = some r := by simp
    rw [length_append, List.length_singleton, startOf_succ hlast, startOf_append le_rfl, h.length]

theorem insertAll_spec : ∀ {rest path : List TrackRange} {s : PathProjection}, s.Indexes path →
    ((path ++ rest).map (·.trackSection)).Nodup → (∀ r ∈ rest, r.beginAt ≤ r.endAt) →
    ∃ s', insertAll path.length rest s = some s' ∧ s'.path = s.path ∧ s'.Indexes (path ++ rest)
  | [], path, s, h, _, _ => ⟨s, rfl, rfl, by rwa [append_nil]⟩
  | r :: rest, path, s, h, hnodup, hordered => by
    have hfresh : s.trackIndex r.trackSection = none := by
      by_contra hsome
      obtain ⟨i, hi⟩ := ne_none_iff_exists'.mp hsome
      obtain ⟨r', hr', htrack⟩ := (h.index_iff _ i).mp hi
      rw [map_append, nodup_append] at hnodup
      exact hnodup.2.2 _ (mem_map_of_mem (mem_of_getElem? hr')) _
        (mem_map_of_mem mem_cons_self) htrack
    have hlength := TrackRange.length_eq (hordered r mem_cons_self)
    rw [append_cons] at hnodup ⊢
    obtain ⟨s', hs', hpath, hindexes⟩ := insertAll_spec (h.insert hfresh) hnodup
      (forall_mem_cons.mp hordered).2
    refine ⟨s', ?_, hpath, hindexes⟩
    rw [insertAll, hfresh, hlength]
    rw [length_append] at hs'
    exact hs'

theorem new_of_ordered (hdistinct : (path.map (·.trackSection)).Nodup)
    (hordered : ∀ r ∈ path, r.beginAt ≤ r.endAt) : ∃ s, new path = some s ∧ s.path = path ∧
      s.Indexes path := by
  have hempty : Indexes ⟨path, fun _ => none, fun _ => none, 0⟩ [] := by
    refine ⟨fun track i => ⟨(nomatch ·), ?_⟩, fun _ => rfl, rfl⟩
    rintro ⟨r, hr, -⟩
    exact nomatch hr
  exact insertAll_spec hempty hdistinct hordered

/-- `new` succeeds on a valid path. -/
theorem new_spec (h : ValidPath path) : ∃ s, new path = some s ∧ s.path = path ∧ s.Indexes path :=
  new_of_ordered h.distinct fun r hr => (h.ordered r hr).le

/-- The loop of `new` panics on a track that it has seen and on a range that ends before it begins. -/
theorem of_insertAll : ∀ {rest : List TrackRange} {index : ℕ} {s s' : PathProjection},
    insertAll index rest s = some s' → (rest.map (·.trackSection)).Nodup ∧
      (∀ r ∈ rest, r.beginAt ≤ r.endAt) ∧ ∀ r ∈ rest, s.trackIndex r.trackSection = none
  | [], _, _, _, _ => ⟨.nil, fun _ hr => (nomatch hr), fun _ hr => nomatch hr⟩
  | r :: rest, index, s, s', h => by
    simp only [insertAll, ite_none_left_eq_some, Bool.not_eq_true, isSome_eq_false_iff,
      isNone_iff_eq_none, bind_eq_bind, bind_eq_some_iff] at h
    obtain ⟨hfresh, length, hlength, h⟩ := h
    obtain ⟨hdistinct, hordered, hnone⟩ := of_insertAll h
    dsimp only at hnone
    have hother : ∀ r' ∈ rest, r'.trackSection ≠ r.trackSection := by
      intro r' hr' heq
      have hseen := hnone r' hr'
      rw [heq, update_self] at hseen
      exact nomatch hseen
    refine ⟨nodup_cons.mpr ⟨fun hmem => ?_, hdistinct⟩,
      forall_mem_cons.mpr ⟨?_, hordered⟩, forall_mem_cons.mpr ⟨hfresh, fun r' hr' => ?_⟩⟩
    · obtain ⟨r', hr', heq⟩ := mem_map.mp hmem
      exact hother r' hr' heq
    · exact (ite_none_right_eq_some.mp hlength).1
    · rw [← hnone r' hr', update_of_ne (hother r' hr')]

end PathProjection

end Osrd.Projection
