import Osrd.Lib.Exhaustive

/-! Model of `recoverBlocks` (`core/kt-osrd-sim-infra/.../utils/BlockRecovery.kt`): the sequences of blocks
    along a list of routes.

    Route after route, each sequence that has come to the end of the routes so far is continued with the
    blocks that fit the zones of the route, until they are at its end. The sequences at hand are pairwise
    different from some block on, and every sequence that is looked for continues one of them: a step of the
    search keeps both.

    An exception is `none`, and so is a search that goes on after the given number of steps. The blocks at a
    detector or a signal are listed once each, as `BlockInfraImpl` does. -/

namespace Osrd.BlockRecovery

open Exhaustive (Poll)
open List

variable {Block ZonePath Signal Detector System Route : Type}

/-- What is read of the blocks. -/
structure BlockInfra (Block ZonePath Signal Detector System : Type) where
  getBlockZonePaths : Block → List ZonePath
  getBlockSignals : Block → List Signal
  blockStopAtBufferStop : Block → Bool
  getBlockSignalingSystem : Block → System
  getBlocksStartingAtDetector : Detector → List Block
  getBlocksAtSignal : Signal → List Block
  starting_nodup : ∀ detector, (getBlocksStartingAtDetector detector).Nodup
  atSignal_nodup : ∀ signal, (getBlocksAtSignal signal).Nodup

structure RawSignalingInfra (Route ZonePath Detector : Type) where
  getRoutePath : Route → List ZonePath
  getZonePathEntry : ZonePath → Detector

inductive BlockPathElement (Block : Type)
  | first (block : Block) (routeIndex routeEndZoneOffset : ℕ)
  | next (prev : BlockPathElement Block) (block : Block) (routeIndex routeEndZoneOffset : ℕ)

namespace BlockPathElement

def block : BlockPathElement Block → Block
  | first block _ _ => block
  | next _ block _ _ => block

def routeEndZoneOffset : BlockPathElement Block → ℕ
  | first _ _ offset => offset
  | next _ _ _ offset => offset

def toBlockList : BlockPathElement Block → List Block
  | first block _ _ => [block]
  | next prev block _ _ => prev.toBlockList ++ [block]

theorem getLast?_toBlockList : ∀ path : BlockPathElement Block, path.toBlockList.getLast? = some path.block
  | first .. => rfl
  | next .. => by simp [toBlockList, block]

end BlockPathElement

/-! ### The code -/

section Code

variable [DecidableEq ZonePath] [DecidableEq System]
  (infra : BlockInfra Block ZonePath Signal Detector System)
  (allowedSignalingSystems : Option (List System))

def isAllowed (block : Block) : Bool :=
  allowedSignalingSystems.all fun systems => infra.getBlockSignalingSystem block ∈ systems

/-- The blocks that are allowed and whose zones are those of the route from the offset on. -/
def filterBlocks (blocks : List Block) (routePath : List ZonePath) (routeOffset : ℕ) : List Block :=
  blocks.filter fun block =>
    let blockZonePaths := infra.getBlockZonePaths block
    isAllowed infra allowedSignalingSystems block ∧ blockZonePaths.length ≤ routePath.length - routeOffset ∧
      (routePath.drop routeOffset).take blockZonePaths.length = blockZonePaths

def findNextBlocks (routePath : List ZonePath) (routeIndex : ℕ) (prevPath : BlockPathElement Block)
    (routeOffset : ℕ) : Option (List (BlockPathElement Block)) :=
  if infra.blockStopAtBufferStop prevPath.block then some []
  else do
    let curSignal ← (infra.getBlockSignals prevPath.block).getLast?
    let blocksOnRoute :=
      filterBlocks infra allowedSignalingSystems (infra.getBlocksAtSignal curSignal) routePath
      routeOffset
    return blocksOnRoute.map fun block =>
      .next prevPath block routeIndex (routeOffset + (infra.getBlockZonePaths block).length)

variable (raw : RawSignalingInfra Route ZonePath Detector) (queue : Poll (BlockPathElement Block)) (fuel : ℕ)
variable (previousPaths : Option (List (BlockPathElement Block)))

/-- The paths at the start of a route. -/
def initialPaths (routePath : List ZonePath) (routeIndex : ℕ) : Option (List (BlockPathElement Block)) :=
  match previousPaths with
  | none => do
      let zonePath ← routePath.head?
      let blocks := infra.getBlocksStartingAtDetector (raw.getZonePathEntry zonePath)
      return (filterBlocks infra allowedSignalingSystems blocks routePath 0).map fun block =>
        .first block routeIndex (infra.getBlockZonePaths block).length
  | some previousPaths => do
      let paths ← previousPaths.mapM fun prevPath =>
        findNextBlocks infra allowedSignalingSystems routePath routeIndex prevPath 0
      return paths.flatten

/-- The loop of `findRouteBlocks`; `addPath` puts a path at the end of the route with the complete ones. -/
def findRouteBlocks (route : Route) (routeIndex : ℕ) : Option (List (BlockPathElement Block)) := do
  let routePath := raw.getRoutePath route
  let isComplete := fun path : BlockPathElement Block => decide (path.routeEndZoneOffset = routePath.length)
  let paths ← initialPaths infra allowedSignalingSystems raw previousPaths routePath routeIndex
  Exhaustive.search queue
    (fun path => findNextBlocks infra allowedSignalingSystems routePath routeIndex path
      path.routeEndZoneOffset)
    isComplete fuel (paths.filter (!isComplete ·)) (paths.filter isComplete)

def recoverBlocks (routes : List Route) : Option (List (BlockPathElement Block)) := do
  let candidates ← routes.zipIdx.foldlM (fun candidates (route, routeIndex) =>
    (findRouteBlocks infra allowedSignalingSystems raw queue fuel candidates route routeIndex).map some) none
  candidates

end Code

/-! ### Sequences of blocks -/

/-- Sequences that differ in some block. -/
def Diverge (xs ys : List Block) : Prop :=
  ∃ common x y xs' ys', x ≠ y ∧ xs = common ++ x :: xs' ∧ ys = common ++ y :: ys'

theorem Diverge.symm {xs ys : List Block} : Diverge xs ys → Diverge ys xs
  | ⟨common, x, y, xs', ys', hne, hxs, hys⟩ => ⟨common, y, x, ys', xs', hne.symm, hys, hxs⟩

theorem Diverge.append {xs ys : List Block} (zs : List Block) : Diverge xs ys → Diverge (xs ++ zs) ys
  | ⟨common, x, y, xs', ys', hne, hxs, hys⟩ => ⟨common, x, y, xs' ++ zs, ys', hne, by simp [hxs], hys⟩

theorem Diverge.ne {xs ys : List Block} (h : Diverge xs ys) : xs ≠ ys := by
  obtain ⟨common, x, y, xs', ys', hne, rfl, rfl⟩ := h
  simp [hne]

section Sequences

variable [DecidableEq System] (infra : BlockInfra Block ZonePath Signal Detector System)
  (systems : Option (List System))

/-- A block may come after another one, which does not stop at a buffer stop: it starts at its last
    signal. -/
def Follows (a b : Block) : Prop :=
  infra.blockStopAtBufferStop a = false ∧
    ∃ signal ∈ (infra.getBlockSignals a).getLast?, b ∈ infra.getBlocksAtSignal signal

/-- A sequence of allowed blocks from a detector on, in the parts that go along the given zones. -/
structure IsSequence (detector : Detector) (paths : List (List ZonePath)) (parts : List (List Block)) :
    Prop where
  zones : parts.map (·.flatMap infra.getBlockZonePaths) = paths
  allowed : ∀ b ∈ parts.flatten, isAllowed infra systems b
  starts : ∀ b ∈ parts.flatten.head?, b ∈ infra.getBlocksStartingAtDetector detector
  follows : parts.flatten.IsChain (Follows infra)

variable {infra systems} {detector : Detector} {done : List (List ZonePath)}
  {routePath : List ZonePath} {parts : List (List Block)} {cur : List Block}

/-- The blocks of the last part go along the last zones. -/
theorem IsSequence.last_zones {path : List ZonePath}
    (h : IsSequence infra systems detector (done ++ [path]) (parts ++ [cur])) :
    parts.map (·.flatMap infra.getBlockZonePaths) = done ∧ cur.flatMap infra.getBlockZonePaths = path := by
  have hzones := h.zones
  rw [map_append] at hzones
  obtain ⟨hparts, hlast⟩ := append_inj' hzones rfl
  exact ⟨hparts, singleton_inj.mp hlast⟩

/-- The sequence goes on with a block of the next zones. -/
theorem IsSequence.concat {offset : ℕ} {path : BlockPathElement Block} {b : Block}
    (h : IsSequence infra systems detector (done ++ [routePath.take offset]) (parts ++ [cur]))
    (hpath : path.toBlockList = (parts ++ [cur]).flatten) (hfollows : Follows infra path.block b)
    (hallowed : isAllowed infra systems b)
    (hzones : (routePath.drop offset).take (infra.getBlockZonePaths b).length = infra.getBlockZonePaths b) :
    IsSequence infra systems detector
      (done ++ [routePath.take (offset + (infra.getBlockZonePaths b).length)]) (parts ++ [cur ++ [b]]) := by
  obtain ⟨hparts, hcur⟩ := h.last_zones
  have hflatten : (parts ++ [cur ++ [b]]).flatten = path.toBlockList ++ [b] := by simp [hpath]
  have hlast := path.getLast?_toBlockList
  refine ⟨?_, ?_, ?_, ?_⟩
  · simp [hparts, hcur, take_add, hzones]
  · rw [hflatten, hpath]
    exact forall_mem_append.mpr ⟨h.allowed, forall_mem_singleton.mpr hallowed⟩
  · intro first hfirst
    refine h.starts first ?_
    rw [hflatten, head?_append_of_ne_nil _ (by rintro hnil; simp [hnil] at hlast), hpath] at hfirst
    exact hfirst
  · rw [hflatten, isChain_append, hlast, hpath]
    refine ⟨h.follows, List.IsChain.singleton b, ?_⟩
    rintro _ ⟨⟩ _ ⟨⟩
    exact hfollows

end Sequences

/-! ### The blocks after a path -/

section Next

variable [DecidableEq ZonePath] [DecidableEq System]
  (infra : BlockInfra Block ZonePath Signal Detector System)
  (systems : Option (List System)) (routePath : List ZonePath) (routeIndex : ℕ)

/-- A block that `filterBlocks` keeps. -/
structure Fits (offset : ℕ) (b : Block) : Prop where
  allowed : isAllowed infra systems b
  size_le : (infra.getBlockZonePaths b).length ≤ routePath.length - offset
  zones : (routePath.drop offset).take (infra.getBlockZonePaths b).length = infra.getBlockZonePaths b

theorem mem_filterBlocks {blocks : List Block} {offset : ℕ} {b : Block} :
    b ∈ filterBlocks infra systems blocks routePath offset ↔
      b ∈ blocks ∧ Fits infra systems routePath offset b := by
  rw [filterBlocks, mem_filter, decide_eq_true_iff]
  exact and_congr_right fun _ => ⟨fun ⟨h₁, h₂, h₃⟩ => ⟨h₁, h₂, h₃⟩, fun ⟨h₁, h₂, h₃⟩ => ⟨h₁, h₂, h₃⟩⟩

/-- The paths that go on from a path. -/
def nextPaths (path : BlockPathElement Block) (offset : ℕ) : List (BlockPathElement Block) :=
  (findNextBlocks infra systems routePath routeIndex path offset).getD []

variable {infra systems routePath routeIndex}

theorem findNextBlocks_eq
    (hsignals : ∀ b, infra.blockStopAtBufferStop b = false → infra.getBlockSignals b ≠ [])
    (path : BlockPathElement Block) (offset : ℕ) :
    findNextBlocks infra systems routePath routeIndex path offset =
      some (nextPaths infra systems routePath routeIndex path offset) := by
  rw [nextPaths, findNextBlocks]
  split
  · rfl
  · next hstop =>
    rw [getLast?_eq_some_getLast (hsignals _ (Bool.eq_false_iff.mpr hstop))]
    rfl

theorem mem_nextPaths {path next : BlockPathElement Block} {offset : ℕ} :
    next ∈ nextPaths infra systems routePath routeIndex path offset ↔
      ∃ b, Follows infra path.block b ∧ Fits infra systems routePath offset b ∧
        next = .next path b routeIndex (offset + (infra.getBlockZonePaths b).length) := by
  rw [nextPaths, findNextBlocks]
  split
  · next hstop => simp [Follows, hstop]
  · next hstop =>
    cases hlast : (infra.getBlockSignals path.block).getLast? with
    | none => simp [Follows, hlast]
    | some signal =>
      simp only [Option.bind_eq_bind, Option.bind_some, Option.pure_def, Option.getD_some, mem_map,
        mem_filterBlocks, Follows, hlast, Bool.eq_false_iff.mpr hstop, Option.mem_some_iff, exists_eq_left',
        true_and, and_assoc]
      exact exists_congr fun b => and_congr_right fun _ => and_congr_right fun _ => eq_comm

/-- The paths that go on from a path differ in their last block. -/
theorem nextPaths_diverge (path : BlockPathElement Block) (offset : ℕ) :
    (nextPaths infra systems routePath routeIndex path offset).Pairwise
      fun p q => Diverge p.toBlockList q.toBlockList := by
  rw [nextPaths, findNextBlocks]
  split
  · exact .nil
  · cases (infra.getBlockSignals path.block).getLast? with
    | none => exact .nil
    | some signal =>
      refine pairwise_map.mpr (((infra.atSignal_nodup signal).filter _).imp fun {b c} hne => ?_)
      exact ⟨path.toBlockList, b, c, [], [], hne, rfl, rfl⟩

end Next

/-! ### What the search keeps -/

section Search

variable [DecidableEq ZonePath] [DecidableEq System]
  (infra : BlockInfra Block ZonePath Signal Detector System)
  (systems : Option (List System)) (detector : Detector) (done : List (List ZonePath))
  (routePath : List ZonePath)

/-- A path that goes along the routes that are done and along the route up to an offset. -/
def Sound (path : BlockPathElement Block) (offset : ℕ) : Prop :=
  offset ≤ routePath.length ∧ ∃ parts cur, path.toBlockList = (parts ++ [cur]).flatten ∧
    IsSequence infra systems detector (done ++ [routePath.take offset]) (parts ++ [cur])

/-- A path that a sequence goes on from, at an offset in its last part. -/
def Toward (parts : List (List Block)) (last : List Block) (path : BlockPathElement Block) (offset : ℕ) :
    Prop :=
  ∃ cur rest, last = cur ++ rest ∧ path.toBlockList = (parts ++ [cur]).flatten ∧
    offset = (cur.flatMap infra.getBlockZonePaths).length

/-- The paths at hand are sequences that differ, and all sequences go on from them. -/
structure Covers (paths : List (BlockPathElement Block)) : Prop where
  sound : ∀ path ∈ paths, Sound infra systems detector done routePath path path.routeEndZoneOffset
  complete : ∀ parts last, IsSequence infra systems detector (done ++ [routePath]) (parts ++ [last]) →
    ∃ path ∈ paths, Toward infra parts last path path.routeEndZoneOffset
  apart : paths.Pairwise fun p q => Diverge p.toBlockList q.toBlockList

variable {infra systems detector done routePath} {routeIndex : ℕ}

theorem Sound.next {path next : BlockPathElement Block} {offset : ℕ}
    (h : Sound infra systems detector done routePath path offset)
    (hnext : next ∈ nextPaths infra systems routePath routeIndex path offset) :
    Sound infra systems detector done routePath next next.routeEndZoneOffset := by
  obtain ⟨hle, parts, cur, hpath, hsequence⟩ := h
  obtain ⟨b, hfollows, hfits, rfl⟩ := mem_nextPaths.mp hnext
  have hsize := hfits.size_le
  refine ⟨?_, parts, cur ++ [b], ?_, hsequence.concat hpath hfollows hfits.allowed hfits.zones⟩
  · simp only [BlockPathElement.routeEndZoneOffset]
    omega
  · simp [BlockPathElement.toBlockList, hpath]

theorem Toward.next {parts : List (List Block)} {last : List Block} {path : BlockPathElement Block}
    {offset : ℕ} (h : Toward infra parts last path offset)
    (hsequence : IsSequence infra systems detector (done ++ [routePath]) (parts ++ [last]))
    (hlt : offset < routePath.length) :
    ∃ next ∈ nextPaths infra systems routePath routeIndex path offset,
      Toward infra parts last next next.routeEndZoneOffset := by
  obtain ⟨cur, rest, rfl, hpath, rfl⟩ := h
  have hzones := hsequence.last_zones.2
  rw [flatMap_append] at hzones
  cases rest with
  | nil =>
    rw [flatMap_nil, append_nil] at hzones
    exact absurd hlt (by rw [hzones]; exact lt_irrefl _)
  | cons b rest =>
    have hflatten : (parts ++ [cur ++ b :: rest]).flatten = path.toBlockList ++ b :: rest := by simp [hpath]
    have hfollows := hsequence.follows
    rw [hflatten, isChain_append, path.getLast?_toBlockList] at hfollows
    refine ⟨_, mem_nextPaths.mpr ⟨b, hfollows.2.2 _ rfl b rfl, ⟨?_, ?_, ?_⟩, rfl⟩, cur ++ [b], rest, ?_,
      ?_, ?_⟩
    · exact hsequence.allowed b (by simp)
    · simp [← hzones]
    · simp [← hzones]
    · simp
    · simp [BlockPathElement.toBlockList, hpath]
    · simp [BlockPathElement.routeEndZoneOffset]

omit [DecidableEq ZonePath] in
theorem Covers.perm {paths paths' : List (BlockPathElement Block)}
    (h : Covers infra systems detector done routePath paths) (hperm : paths.Perm paths') :
    Covers infra systems detector done routePath paths' where
  sound path hpath := h.sound path (hperm.mem_iff.mpr hpath)
  complete parts last hsequence := by
    obtain ⟨path, hpath, htoward⟩ := h.complete parts last hsequence
    exact ⟨path, hperm.mem_iff.mp hpath, htoward⟩
  apart := hperm.pairwise h.apart fun hpq => hpq.symm

variable {paths : List (BlockPathElement Block)}

/-- A path is replaced by those that go on from it. -/
theorem Covers.expand {path : BlockPathElement Block}
    (h : Covers infra systems detector done routePath (path :: paths))
    (hincomplete : path.routeEndZoneOffset ≠ routePath.length) :
    Covers infra systems detector done routePath (paths ++
      nextPaths infra systems routePath routeIndex path path.routeEndZoneOffset) where
  sound := by
    obtain ⟨hpath, hpaths⟩ := forall_mem_cons.mp h.sound
    exact forall_mem_append.mpr ⟨hpaths, fun next hnext => hpath.next hnext⟩
  complete parts last hsequence := by
    obtain ⟨p, hp, htoward⟩ := h.complete parts last hsequence
    rcases mem_cons.mp hp with rfl | hp
    · have hle := (h.sound p mem_cons_self).1
      obtain ⟨next, hnext, htoward'⟩ := htoward.next hsequence (lt_of_le_of_ne hle hincomplete)
      exact ⟨next, mem_append_right _ hnext, htoward'⟩
    · exact ⟨p, mem_append_left _ hp, htoward⟩
  apart := by
    obtain ⟨hpath, hpaths⟩ := pairwise_cons.mp h.apart
    refine pairwise_append.mpr ⟨hpaths, nextPaths_diverge _ _, fun p hp next hnext => ?_⟩
    obtain ⟨b, -, -, rfl⟩ := mem_nextPaths.mp hnext
    exact ((hpath p hp).append [b]).symm

variable (infra systems detector) in
/-- The paths along some routes: all sequences, and each of them once. -/
structure Found (paths : List (List ZonePath)) (found : List (BlockPathElement Block)) : Prop where
  sound : ∀ path ∈ found, ∃ parts, path.toBlockList = parts.flatten ∧
    IsSequence infra systems detector paths parts
  complete : ∀ parts, IsSequence infra systems detector paths parts →
    ∃ path ∈ found, path.toBlockList = parts.flatten
  apart : found.Pairwise fun p q => Diverge p.toBlockList q.toBlockList

omit [DecidableEq ZonePath] in
/-- At the end of the route nothing is left to go on with. -/
theorem Covers.found (h : Covers infra systems detector done routePath paths)
    (hzones : ∀ b, infra.getBlockZonePaths b ≠ [])
    (hcomplete : ∀ path ∈ paths, path.routeEndZoneOffset = routePath.length) :
    Found infra systems detector (done ++ [routePath]) paths where
  sound path hpath := by
    obtain ⟨-, parts, cur, hlist, hsequence⟩ := h.sound path hpath
    rw [hcomplete path hpath, take_length] at hsequence
    exact ⟨parts ++ [cur], hlist, hsequence⟩
  complete parts hsequence := by
    rcases eq_nil_or_concat parts with rfl | ⟨parts, last, rfl⟩
    · exact absurd hsequence.zones (by simp)
    rw [concat_eq_append] at hsequence ⊢
    obtain ⟨path, hpath, cur, rest, rfl, hlist, hoffset⟩ := h.complete parts last hsequence
    refine ⟨path, hpath, ?_⟩
    have hrest : rest.flatMap infra.getBlockZonePaths = [] := by
      have hlength := congrArg length hsequence.last_zones.2
      rw [flatMap_append, length_append, ← hoffset, hcomplete path hpath] at hlength
      exact length_eq_zero_iff.mp (by omega)
    cases rest with
    | nil => simpa using hlist
    | cons b rest => exact absurd (append_eq_nil_iff.mp hrest).1 (hzones b)
  apart := h.apart

omit [DecidableEq ZonePath] in
theorem IsSequence.init {parts : List (List Block)} {last : List Block}
    (h : IsSequence infra systems detector (done ++ [routePath]) (parts ++ [last])) :
    IsSequence infra systems detector done parts := by
  have hflatten : (parts ++ [last]).flatten = parts.flatten ++ last := by simp
  refine ⟨h.last_zones.1, fun b hb => h.allowed b (by simp_all), fun b hb => h.starts b ?_, ?_⟩
  · rw [hflatten, head?_append, hb]
    rfl
  · have hfollows := h.follows
    rw [hflatten] at hfollows
    exact (isChain_append.mp hfollows).1

/-- The paths at the start of a route that follows others. -/
theorem Found.covers_next {found : List (BlockPathElement Block)}
    (h : Found infra systems detector done found) (hne : routePath ≠ []) (routeIndex : ℕ) :
    Covers infra systems detector done routePath
      (found.flatMap fun path => nextPaths infra systems routePath routeIndex path 0) where
  sound next hnext := by
    obtain ⟨path, hpath, hnext⟩ := mem_flatMap.mp hnext
    obtain ⟨parts, hlist, hsequence⟩ := h.sound path hpath
    refine Sound.next ⟨Nat.zero_le _, parts, [], by simp [hlist], ?_⟩ hnext
    exact ⟨by simp [hsequence.zones], by simpa using hsequence.allowed, by simpa using hsequence.starts,
      by simpa using hsequence.follows⟩
  complete parts last hsequence := by
    obtain ⟨path, hpath, hlist⟩ := h.complete parts hsequence.init
    have htoward : Toward infra parts last path 0 := ⟨[], last, rfl, by simp [hlist], rfl⟩
    obtain ⟨next, hnext, htoward'⟩ := htoward.next hsequence (length_pos_of_ne_nil hne)
    exact ⟨next, mem_flatMap.mpr ⟨path, hpath, hnext⟩, htoward'⟩
  apart := by
    refine pairwise_flatMap.mpr ⟨fun path _ => nextPaths_diverge path 0, h.apart.imp fun {p q} hpq => ?_⟩
    rintro p' hp' q' hq'
    obtain ⟨b, -, -, rfl⟩ := mem_nextPaths.mp hp'
    obtain ⟨c, -, -, rfl⟩ := mem_nextPaths.mp hq'
    exact ((hpq.append [b]).symm.append [c]).symm

theorem covers_first (hne : routePath ≠ []) (routeIndex : ℕ) : Covers infra systems detector [] routePath
      ((filterBlocks infra systems (infra.getBlocksStartingAtDetector detector) routePath 0).map
        fun block => .first block routeIndex (infra.getBlockZonePaths block).length) where
  sound path hpath := by
    obtain ⟨b, hb, rfl⟩ := mem_map.mp hpath
    obtain ⟨hstarts, hfits⟩ := (mem_filterBlocks ..).mp hb
    have hzones := hfits.zones
    rw [drop_zero] at hzones
    exact ⟨hfits.size_le, [], [b], rfl, by simp [hzones, BlockPathElement.routeEndZoneOffset],
      by simpa using hfits.allowed, by simpa using hstarts, by simp⟩
  complete parts last hsequence := by
    obtain ⟨hparts, hzones⟩ := hsequence.last_zones
    obtain rfl := map_eq_nil_iff.mp hparts
    cases last with
    | nil => exact absurd hzones.symm hne
    | cons b rest =>
      have hfits : Fits infra systems routePath 0 b :=
        ⟨hsequence.allowed b (by simp), by simp [← hzones], by simp [← hzones]⟩
      have hstarts := hsequence.starts b (by simp)
      exact ⟨_, mem_map.mpr ⟨b, (mem_filterBlocks ..).mpr ⟨hstarts, hfits⟩, rfl⟩, [b], rest, rfl, rfl,
        by simp [BlockPathElement.routeEndZoneOffset]⟩
  apart := by
    refine pairwise_map.mpr (((infra.starting_nodup detector).filter _).imp fun {b c} hne => ?_)
    exact ⟨[], b, c, [], [], hne, rfl, rfl⟩

variable (hzones : ∀ b, infra.getBlockZonePaths b ≠ [])
  (hsignals : ∀ b, infra.blockStopAtBufferStop b = false → infra.getBlockSignals b ≠ [])
  (raw : RawSignalingInfra Route ZonePath Detector) (queue : Poll (BlockPathElement Block))

include hzones hsignals

/-- The search along a route ends, with all sequences along it. -/
theorem findRouteBlocks_found {previousPaths : Option (List (BlockPathElement Block))} {route : Route}
    (hpaths : initialPaths infra systems raw previousPaths (raw.getRoutePath route) routeIndex =
      some paths) (hcovers : Covers infra systems detector done (raw.getRoutePath route) paths) :
    ∃ bound found, Found infra systems detector (done ++ [raw.getRoutePath route]) found ∧
      ∀ fuel, bound ≤ fuel → findRouteBlocks infra systems raw queue fuel previousPaths route
        routeIndex = some found := by
  let routePath := raw.getRoutePath route
  let isComplete := fun path : BlockPathElement Block => decide (path.routeEndZoneOffset = routePath.length)
  let next := fun path : BlockPathElement Block =>
    nextPaths infra systems routePath routeIndex path path.routeEndZoneOffset
  let Inv := fun nodes found : List (BlockPathElement Block) =>
    Covers infra systems detector done routePath (nodes ++ found) ∧
      (∀ path ∈ nodes, path.routeEndZoneOffset ≠ routePath.length) ∧
      ∀ path ∈ found, path.routeEndZoneOffset = routePath.length
  have hrank : ∀ path, ∀ m ∈ next path,
      routePath.length - m.routeEndZoneOffset < routePath.length - path.routeEndZoneOffset := by
    intro path m hm
    obtain ⟨b, -, hfits, rfl⟩ := mem_nextPaths.mp hm
    have hsize := hfits.size_le
    have hpos := length_pos_of_ne_nil (hzones b)
    change routePath.length - (path.routeEndZoneOffset + (infra.getBlockZonePaths b).length) < _
    omega
  -- paths that are added go to the incomplete or to the complete ones
  have hadd : ∀ {nodes found} (added : List (BlockPathElement Block)),
      Covers infra systems detector done routePath (nodes ++ found ++ added) →
      (∀ path ∈ nodes, path.routeEndZoneOffset ≠ routePath.length) →
      (∀ path ∈ found, path.routeEndZoneOffset = routePath.length) →
      Inv (nodes ++ added.filter (!isComplete ·)) (found ++ added.filter isComplete) := by
    intro nodes found added hcovers hnodes hfound
    refine ⟨hcovers.perm ?_, forall_mem_append.mpr ⟨hnodes, by simp [isComplete]⟩,
      forall_mem_append.mpr ⟨hfound, by simp [isComplete]⟩⟩
    have hperm := perm_append_comm.trans (filter_append_perm isComplete added)
    rw [append_assoc, append_assoc]
    refine .append_left nodes ((hperm.symm.append_left found).trans ?_)
    exact perm_append_comm_assoc ..
  obtain ⟨bound, found, ⟨hfound, -, hcomplete⟩, hresult⟩ := @Exhaustive.exists_search _ _ next isComplete
    (routePath.length - ·.routeEndZoneOffset) queue (findNextBlocks_eq hsignals · _) hrank Inv
    (fun {nodes path rest found} hperm h => by
      obtain ⟨hcovers, hnodes, hfound⟩ := h
      obtain ⟨hpath, hrest⟩ := forall_mem_cons.mp fun p hp => hnodes p (hperm.mem_iff.mpr hp)
      exact hadd _ ((hcovers.perm (hperm.append_right found)).expand hpath) hrest hfound)
    (paths.filter (!isComplete ·)) (paths.filter isComplete) (@hadd [] [] paths hcovers (by simp) (by simp))
  refine ⟨bound, found, hfound.found hzones hcomplete, fun fuel hfuel => ?_⟩
  rw [findRouteBlocks, hpaths]
  exact hresult fuel hfuel

theorem recover_rest : ∀ {rest : List Route} (routeIndex : ℕ) {done : List (List ZonePath)}
    {found : List (BlockPathElement Block)}, (∀ route ∈ rest, raw.getRoutePath route ≠ []) →
    Found infra systems detector done found →
    ∃ bound found', Found infra systems detector (done ++ rest.map raw.getRoutePath) found' ∧
      ∀ fuel, bound ≤ fuel → (rest.zipIdx routeIndex).foldlM (fun candidates (route, routeIndex) =>
        (findRouteBlocks infra systems raw queue fuel candidates route routeIndex).map some)
        (some found) = some (some found')
  | [], _, _, found, _, h => ⟨0, found, by simpa using h, fun _ _ => rfl⟩
  | route :: rest, routeIndex, done, found, hne, h => by
    obtain ⟨hroute, hrest⟩ := forall_mem_cons.mp hne
    have hpaths : initialPaths infra systems raw (some found) (raw.getRoutePath route)
        routeIndex = some (found.flatMap fun path =>
          nextPaths infra systems (raw.getRoutePath route) routeIndex path 0) := by
      simp only [initialPaths, findNextBlocks_eq hsignals]
      rw [← Option.pure_def, mapM_pure, flatMap]
      rfl
    obtain ⟨bound, found₁, h₁, hcode⟩ :=
      findRouteBlocks_found hzones hsignals raw queue hpaths (h.covers_next hroute routeIndex)
    obtain ⟨bound', found₂, h₂, hcode'⟩ := recover_rest (routeIndex + 1) hrest h₁
    refine ⟨max bound bound', found₂, by simpa using h₂, fun fuel hfuel => ?_⟩
    simp only [zipIdx_cons, foldlM_cons, hcode fuel (le_of_max_le_left hfuel)]
    exact hcode' fuel (le_of_max_le_right hfuel)

variable (systems) in
/-- The sequences of blocks along a list of routes, each of them once. -/
theorem recoverBlocks_spec (route : Route) (rest : List Route)
    (hne : ∀ r ∈ route :: rest, raw.getRoutePath r ≠ []) :
    ∃ zonePath bound result, (raw.getRoutePath route).head? = some zonePath ∧ (∀ fuel, bound ≤ fuel →
        recoverBlocks infra systems raw queue fuel (route :: rest) = some result) ∧
      (result.map (·.toBlockList)).Nodup ∧
      ∀ blocks, blocks ∈ result.map (·.toBlockList) ↔ ∃ parts, blocks = parts.flatten ∧
        IsSequence infra systems (raw.getZonePathEntry zonePath)
          ((route :: rest).map raw.getRoutePath) parts := by
  obtain ⟨hroute, hrest⟩ := forall_mem_cons.mp hne
  obtain ⟨zonePath, hzonePath⟩ := Option.isSome_iff_exists.mp (isSome_head?.mpr hroute)
  have hpaths (index : ℕ) : initialPaths infra systems raw none (raw.getRoutePath route) index =
      some ((filterBlocks infra systems (infra.getBlocksStartingAtDetector
        (raw.getZonePathEntry zonePath)) (raw.getRoutePath route) 0).map
          fun block => .first block index (infra.getBlockZonePaths block).length) := by
    rw [initialPaths, hzonePath]
    rfl
  obtain ⟨bound, found, hfirst, hcode⟩ :=
    findRouteBlocks_found hzones hsignals raw queue (hpaths 0) (covers_first hroute 0)
  obtain ⟨bound', result, hfound, hcode'⟩ := recover_rest hzones hsignals raw queue 1 hrest hfirst
  refine ⟨zonePath, max bound bound', result, hzonePath, fun fuel hfuel => ?_, ?_, fun blocks => ⟨?_, ?_⟩⟩
  · simp only [recoverBlocks, zipIdx_cons, foldlM_cons, hcode fuel (le_of_max_le_left hfuel)]
    exact congrArg (Option.bind · id) (hcode' fuel (le_of_max_le_right hfuel))
  · exact pairwise_map.mpr (hfound.apart.imp Diverge.ne)
  · intro h
    obtain ⟨path, hpath, rfl⟩ := mem_map.mp h
    exact hfound.sound path hpath
  · rintro ⟨parts, rfl, hsequence⟩
    exact mem_map.mpr (hfound.complete parts hsequence)

end Search

/-- The blocks of a line, from signal to signal. -/
def line : BlockInfra ℕ ℕ ℕ Unit Unit where
  getBlockZonePaths block := [block]
  getBlockSignals block := [block]
  blockStopAtBufferStop _ := false
  getBlockSignalingSystem _ := ()
  getBlocksStartingAtDetector _ := [0]
  getBlocksAtSignal signal := [signal + 1]
  starting_nodup _ := List.nodup_singleton _
  atSignal_nodup _ := List.nodup_singleton _

/-- Two routes of one zone each. -/
theorem recoverBlocks_line :
    (∀ b, line.getBlockZonePaths b ≠ []) ∧
      (∀ b, line.blockStopAtBufferStop b = false → line.getBlockSignals b ≠ []) ∧
      ∀ queue, ∃ bound result, (∀ fuel, bound ≤ fuel →
        recoverBlocks line none ⟨fun route => [route], fun _ => ()⟩ queue fuel [0, 1] = some result) ∧
        [0, 1] ∈ result.map (·.toBlockList) := by
  have hzones : ∀ b, line.getBlockZonePaths b ≠ [] := by simp [line]
  have hsignals : ∀ b, line.blockStopAtBufferStop b = false → line.getBlockSignals b ≠ [] := by simp [line]
  refine ⟨hzones, hsignals, fun queue => ?_⟩
  obtain ⟨_, bound, result, -, hresult, -, hmem⟩ := recoverBlocks_spec none hzones hsignals
    ⟨fun route => [route], fun _ => ()⟩ queue 0 [1] (by simp)
  refine ⟨bound, result, hresult, (hmem _).mpr ⟨[[0], [1]], rfl, rfl, by simp [isAllowed], by simp [line],
    ?_⟩⟩
  simp [Follows, line]

/-- A route between a detector and itself has no zone, and the entry of its first zone is looked up. -/
theorem recoverBlocks_no_zone :
    (∀ b, line.getBlockZonePaths b ≠ []) ∧
      (∀ b, line.blockStopAtBufferStop b = false → line.getBlockSignals b ≠ []) ∧
      ∀ queue fuel, recoverBlocks line none ⟨fun _ : ℕ => [], fun _ => ()⟩ queue fuel [0] = none :=
  ⟨by simp [line], by simp [line], fun _ _ => rfl⟩

end Osrd.BlockRecovery
