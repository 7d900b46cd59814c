import Mathlib
import Osrd.Path.LinearRange
import Osrd.Stdcm.BlockAvailability

/-! Model of `SpacingResourceGenerator` (`core/.../conflicts/SpacingResourceGenerator.kt`): the zones that
    a train needs free, as its path and its simulation become known. The path is what `extendPath`
    stores; the signaling simulation is a parameter. An outer `none` is an exception, an inner one is
    the null that asks for more path.

    A signal needs the zones up to the first one whose occupation does not constrain it.
    `getRequirementEndOffset` looks for that zone around a guess, by a binary search in a window of 40
    zones and then one by one. For a predicate that changes once it finds what a plain scan finds
    (`getRequirementEndOffset_eq`). -/

namespace Osrd.Conflicts

open Osrd.Path (GenericLinearRange)

variable {required : ℕ → Option Bool}

abbrev BlockId := ℕ
abbrev RouteId := ℕ
abbrev ZonePathId := ℕ
abbrev LogicalSignalId := ℕ

/-- `IncrementalRequirementCallbacks`: what is known of the simulation. -/
structure Callbacks where
  arrivalTimeInRange : ℤ → ℤ → WithTop ℚ
  departureTimeFromRange : ℤ → ℤ → WithTop ℚ
  departureFromStop : ℤ → WithTop ℚ
  maxSpeedInRange : ℤ → ℤ → WithTop ℚ
  currentTime : ℚ
  currentPathOffset : ℤ
  simulationComplete : Bool

structure PendingSignalData where
  signal : LogicalSignalId
  offset : ℤ
  sightOffset : ℤ
  isCurveBased : Bool

/-- `SimulationCacheData` -/
structure SimulationCacheData where
  blockIds : List BlockId
  routeIds : List RouteId

/-- The infrastructure and the signaling simulator: `isConstraining` evaluates the signals with at most
    one occupied zone, given by its index. -/
structure SignalingInfra where
  getZonePathZone : ZonePathId → ZoneId
  isConstraining : SimulationCacheData → Option ℕ → ZoneId → LogicalSignalId → WithTop ℚ → Bool
  getETCSFirstRequiredOffset : SimulationCacheData → Callbacks → PendingSignalData → ℤ

structure OngoingZoneRequirement where
  zoneEntryOffset : ℤ
  zoneExitOffset : ℤ
  minRequiredOffset : ℤ

/-- `stops` holds the offsets of the stops on closed signals, `zonePaths` the keys of
    `ongoingZoneRequirements` in the order of their insertion. -/
structure SpacingResourceGenerator where
  blockRanges : List (GenericLinearRange BlockId)
  routeRanges : List (GenericLinearRange RouteId)
  zoneRanges : List (GenericLinearRange ZonePathId)
  stops : List ℤ
  pendingSignals : List PendingSignalData
  zonePaths : List ZonePathId
  ongoingZoneRequirements : ZonePathId → Option OngoingZoneRequirement
  isPathComplete : Bool

namespace SpacingResourceGenerator

/-! ### The end of what a signal requires -/

section EndOffset

/-- `tryAt`: an index outside of the bounds is not tried. -/
def tryAt (required : ℕ → Option Bool) (index : ℤ) (bounds : ℕ × ℕ) : Option (ℕ × ℕ) :=
  if bounds.1 ≤ index ∧ index < bounds.2 then do
    if ← required index.toNat then some (index.toNat + 1, bounds.2)
    else some (bounds.1, index.toNat)
  else some bounds

/-- The main loop. Each round moves one of the bounds, so `upperBound - lowerBound` rounds are enough. -/
def binarySearch (required : ℕ → Option Bool) : ℕ → ℕ × ℕ → Option (ℕ × ℕ)
  | 0, bounds => some bounds
  | fuel + 1, bounds =>
      if bounds.1 < bounds.2 then do
        binarySearch required fuel (← tryAt required ↑((bounds.2 + bounds.1) / 2) bounds)
      else some bounds

/-- The last loop, one zone after the other. -/
def searchAbove (required : ℕ → Option Bool) (initialUpperBound lastZoneIndex : ℕ) : ℕ → ℕ → Option ℕ
  | 0, lowerBound => some lowerBound
  | fuel + 1, lowerBound =>
      if initialUpperBound ≤ lowerBound ∧ lowerBound < lastZoneIndex then do
        if ← required lowerBound then
          searchAbove required initialUpperBound lastZoneIndex fuel (lowerBound + 1)
        else some lowerBound
      else some lowerBound

variable (g : SpacingResourceGenerator) (infra : SignalingInfra) (callbacks : Callbacks)
  (simulationData : SimulationCacheData) (signalData : PendingSignalData)

/-- The speed is all that the state of the train holds. -/
def buildTrainState : Option (WithTop ℚ) := do
  let nextSignalOffset ←
    ((g.pendingSignals.map (·.offset)).find? fun offset => signalData.offset < offset) <|>
      if g.isPathComplete then some callbacks.currentPathOffset else none
  some (callbacks.maxSpeedInRange signalData.sightOffset nextSignalOffset)

/-- `none` asks for a longer path. -/
def isZoneIndexRequiredForSignal (firstZone : ZoneId) (trainState : WithTop ℚ) (probedZoneIndex : ℕ) :
    Option Bool :=
  if g.zoneRanges.length < probedZoneIndex then none
  else
    some (infra.isConstraining simulationData
      (if probedZoneIndex < g.zoneRanges.length then some probedZoneIndex else none) firstZone
      signalData.signal trainState)

/-- `indexOfLast` -/
def indexOfLast {V : Type} (p : V → Bool) (l : List V) : ℤ :=
  match l.reverse.findIdx? p with
  | none => -1
  | some i => l.length - 1 - i

def guessZoneIndex : Option ℤ := do
  let firstBlockIndex ← g.blockRanges.findIdx? fun block => signalData.offset ≤ block.pathBegin
  let initialGuess ← g.blockRanges[firstBlockIndex + 1]?
  some (indexOfLast (fun zone => zone.pathEnd ≤ initialGuess.pathEnd) g.zoneRanges)

def tryGuess (required : ℕ → Option Bool) (bounds : ℕ × ℕ) : Option (ℕ × ℕ) :=
  match g.guessZoneIndex signalData with
  | none => some bounds
  | some guess => do tryAt required guess (← tryAt required (guess + 1) bounds)

/-- From the first zone after the signal on. -/
def searchEnd (required : ℕ → Option Bool) (lowerBound : ℕ) : Option (Option ℤ) := do
  let initialUpperBound := min (lowerBound + 40) g.zoneRanges.length
  let bounds ← g.tryGuess signalData required (lowerBound, initialUpperBound)
  let bounds ← binarySearch required (bounds.2 - bounds.1) bounds
  let firstNonRequiredZoneIndex ← searchAbove required initialUpperBound g.zoneRanges.length
    (g.zoneRanges.length - bounds.1) bounds.1
  if firstNonRequiredZoneIndex = 0 then none
  else g.zoneRanges[firstNonRequiredZoneIndex - 1]?.map fun zone => some zone.pathEnd

/-- Without zones both `first` and `last` throw. -/
def getRequirementEndOffset : Option (Option ℤ) :=
  if signalData.isCurveBased then
    (g.blockRanges.find? fun block => signalData.offset ≤ block.pathBegin).map fun block =>
      some block.pathEnd
  else
    match g.buildTrainState callbacks signalData, g.zoneRanges.head? with
    | none, _ => some none
    | some _, none => none
    | some trainState, some firstZone =>
        let required := g.isZoneIndexRequiredForSignal infra simulationData signalData
          (infra.getZonePathZone firstZone.value) trainState
        if g.isPathComplete = false ∧ required g.zoneRanges.length ≠ some false then some none
        else
          match g.zoneRanges.findIdx? fun zone => signalData.offset ≤ zone.pathBegin with
          | none => g.zoneRanges.getLast?.map fun zone => some zone.pathEnd
          | some lowerBound => g.searchEnd signalData required lowerBound

/-- The zone is required for the signal: what `isZoneIndexRequiredForSignal` says on the path. -/
def requires (zoneIndex : ℕ) : Bool :=
  match g.buildTrainState callbacks signalData, g.zoneRanges.head? with
  | some trainState, some firstZone => infra.isConstraining simulationData (some zoneIndex)
      (infra.getZonePathZone firstZone.value) signalData.signal trainState
  | _, _ => false

end EndOffset

/-! ### The search -/

section Search

variable {required : ℕ → Option Bool} {n last window : ℕ}

/-- The zones up to `last` are required, the ones after it are not. -/
def RequiredTo (required : ℕ → Option Bool) (n last : ℕ) : Prop :=
  ∀ i < n, required i = some (decide (i ≤ last))

/-- The first zone that is not required is between the bounds, or above the window. -/
structure Bounding (last window : ℕ) (bounds : ℕ × ℕ) : Prop where
  lower_le : bounds.1 ≤ last + 1
  le : bounds.1 ≤ bounds.2
  le_window : bounds.2 ≤ window
  upper : last < bounds.2 ∨ bounds.2 = window

/-- An attempt keeps the first zone that is not required, and moves a bound when it is between them. -/
theorem tryAt_spec (hrequired : RequiredTo required n last) (hn : window ≤ n) {bounds : ℕ × ℕ}
    (h : Bounding last window bounds) (index : ℤ) :
    ∃ bounds', tryAt required index bounds = some bounds' ∧ Bounding last window bounds' ∧
      (bounds.1 ≤ index → index < bounds.2 → bounds'.2 - bounds'.1 < bounds.2 - bounds.1) := by
  rw [tryAt]
  split
  next hin =>
    obtain ⟨i, rfl⟩ := Int.eq_ofNat_of_zero_le (by omega : 0 ≤ index)
    have hi : i < n := by have := h.le_window; omega
    rw [Int.toNat_natCast, hrequired i hi]
    by_cases hle : i ≤ last
    · simp only [hle]
      exact ⟨_, rfl, ⟨by omega, by omega, h.le_window, h.upper⟩, by omega⟩
    · simp only [hle]
      have := h.le_window
      exact ⟨_, rfl, ⟨h.lower_le, by omega, by omega, by omega⟩, by omega⟩
  next hout => exact ⟨bounds, rfl, h, fun hlo hup => absurd ⟨hlo, hup⟩ hout⟩

/-- The binary search ends with equal bounds. -/
theorem binarySearch_spec (hrequired : RequiredTo required n last) (hn : window ≤ n) :
    ∀ (fuel : ℕ) {bounds : ℕ × ℕ}, Bounding last window bounds → bounds.2 - bounds.1 ≤ fuel →
    ∃ bounds', binarySearch required fuel bounds = some bounds' ∧ Bounding last window bounds' ∧
      bounds'.1 = bounds'.2
  | 0, bounds, h, hfuel => ⟨bounds, rfl, h, by have := h.le; omega⟩
  | fuel + 1, bounds, h, hfuel => by
    rw [binarySearch]
    split
    next hlt =>
      obtain ⟨bounds₁, htry, h₁, hshorter⟩ := tryAt_spec hrequired hn h ↑((bounds.2 + bounds.1) / 2)
      obtain ⟨bounds₂, hsearch, h₂⟩ := binarySearch_spec hrequired hn fuel h₁ (by omega)
      exact ⟨bounds₂, by rw [htry]; exact hsearch, h₂⟩
    next hge => exact ⟨bounds, rfl, h, by have := h.le; omega⟩

/-- Above the window the search goes on to the first zone that is not required. -/
theorem searchAbove_spec (window : ℕ) (hrequired : RequiredTo required n last) (hlast : last < n) :
    ∀ {fuel lowerBound : ℕ}, lowerBound ≤ last + 1 → (lowerBound = last + 1 ∨ window ≤ lowerBound) →
    n - lowerBound ≤ fuel → searchAbove required window n fuel lowerBound = some (last + 1)
  | 0, lowerBound, hle, _, hfuel => congrArg some (by omega)
  | fuel + 1, lowerBound, hle, habove, hfuel => by
    rw [searchAbove]
    split
    next hin =>
      rw [hrequired lowerBound hin.2]
      by_cases hreq : lowerBound ≤ last
      · simp only [hreq]
        exact searchAbove_spec window hrequired hlast (by omega) (by omega) (by omega)
      · simp only [hreq, decide_false, Option.bind_eq_bind, Option.bind_some, Bool.false_eq_true, if_false]
        exact congrArg some (by omega)
    next hout => exact congrArg some (by omega)

end Search

variable {g : SpacingResourceGenerator} {infra : SignalingInfra} {callbacks : Callbacks}
  {simulationData : SimulationCacheData} {signalData : PendingSignalData}

theorem exists_buildTrainState (callbacks : Callbacks) (signalData : PendingSignalData)
    (hcomplete : g.isPathComplete = true) :
    ∃ trainState, g.buildTrainState callbacks signalData = some trainState := by
  rw [buildTrainState]
  cases (g.pendingSignals.map (·.offset)).find? fun offset => signalData.offset < offset with
  | none => exact ⟨_, by rw [if_pos hcomplete]; rfl⟩
  | some offset => exact ⟨_, rfl⟩

theorem tryGuess_spec (g : SpacingResourceGenerator) (signalData : PendingSignalData)
    {n last window : ℕ} {bounds : ℕ × ℕ} (hrequired : RequiredTo required n last) (hn : window ≤ n)
    (h : Bounding last window bounds) :
    ∃ bounds', g.tryGuess signalData required bounds = some bounds' ∧ Bounding last window bounds' := by
  rw [tryGuess]
  split
  · exact ⟨bounds, rfl, h⟩
  next guess _ =>
    obtain ⟨bounds₁, htry₁, h₁, -⟩ := tryAt_spec hrequired hn h (guess + 1)
    obtain ⟨bounds₂, htry₂, h₂, -⟩ := tryAt_spec hrequired hn h₁ guess
    exact ⟨bounds₂, by rw [htry₁]; exact htry₂, h₂⟩

theorem searchEnd_spec (signalData : PendingSignalData) {last lowerBound : ℕ}
    (hrequired : RequiredTo required g.zoneRanges.length last) (hlast : last < g.zoneRanges.length)
    (hlower : lowerBound ≤ last) :
    g.searchEnd signalData required lowerBound = some (some g.zoneRanges[last].pathEnd) := by
  have hn := min_le_right (lowerBound + 40) g.zoneRanges.length
  have hinitial : Bounding last (min (lowerBound + 40) g.zoneRanges.length)
      (lowerBound, min (lowerBound + 40) g.zoneRanges.length) :=
    ⟨by omega, by omega, le_rfl, .inr rfl⟩
  obtain ⟨bounds, hguess, h⟩ := tryGuess_spec g signalData hrequired hn hinitial
  obtain ⟨bounds', hsearch, h', heq⟩ := binarySearch_spec hrequired hn _ h le_rfl
  have habove := searchAbove_spec (min (lowerBound + 40) g.zoneRanges.length) hrequired hlast
    h'.lower_le (by have := h'.upper; have := h'.lower_le; omega) le_rfl
  simp [searchEnd, hguess, hsearch, habove, hlast]

/-- On a complete path the search ends at the last zone that is required. -/
theorem getRequirementEndOffset_eq {lowerBound : ℕ} (hcomplete : g.isPathComplete = true)
    (hcurve : signalData.isCurveBased = false)
    (hafter : g.zoneRanges.findIdx? (fun zone => signalData.offset ≤ zone.pathBegin) = some lowerBound)
    (hmono : AntitoneOn (g.requires infra callbacks simulationData signalData) (Set.Iio g.zoneRanges.length))
    (hrequired : g.requires infra callbacks simulationData signalData lowerBound = true) :
    ∃ last, ∃ h : last < g.zoneRanges.length, IsGreatest {i | i < g.zoneRanges.length ∧
        g.requires infra callbacks simulationData signalData i = true} last ∧
      g.getRequirementEndOffset infra callbacks simulationData signalData =
        some (some g.zoneRanges[last].pathEnd) := by
  obtain ⟨hlower, -⟩ := List.findIdx?_eq_some_iff_getElem.mp hafter
  obtain ⟨last, hlast, hmax⟩ : ∃ last, IsGreatest {i | i < g.zoneRanges.length ∧
      g.requires infra callbacks simulationData signalData i = true} last := by
    have hbounded : BddAbove {i | i < g.zoneRanges.length ∧
        g.requires infra callbacks simulationData signalData i = true} := ⟨_, fun i hi => hi.1.le⟩
    exact ⟨_, Nat.sSup_mem ⟨lowerBound, hlower, hrequired⟩ hbounded, fun i hi => le_csSup hbounded hi⟩
  refine ⟨last, hlast.1, ⟨hlast, hmax⟩, ?_⟩
  obtain ⟨trainState, hstate⟩ := exists_buildTrainState callbacks signalData hcomplete
  obtain ⟨firstZone, hfirst⟩ : ∃ firstZone, g.zoneRanges.head? = some firstZone :=
    ⟨_, List.head?_eq_some_head (List.ne_nil_of_length_pos (by omega))⟩
  have hto : RequiredTo (g.isZoneIndexRequiredForSignal infra simulationData signalData
      (infra.getZonePathZone firstZone.value) trainState) g.zoneRanges.length last := by
    intro i hi
    have heq : g.isZoneIndexRequiredForSignal infra simulationData signalData
        (infra.getZonePathZone firstZone.value) trainState i =
        some (g.requires infra callbacks simulationData signalData i) := by
      simp [isZoneIndexRequiredForSignal, requires, hstate, hfirst, hi, hi.le]
    rw [heq]
    congr 1
    by_cases hle : i ≤ last
    · rw [decide_eq_true hle]
      exact Bool.eq_true_of_true_le (hlast.2 ▸ hmono hi hlast.1 hle)
    · rw [decide_eq_false hle]
      by_contra hnot
      exact hle (hmax ⟨hi, Bool.eq_true_of_not_eq_false hnot⟩)
  have hsearch := searchEnd_spec signalData hto hlast.1 (hmax ⟨hlower, hrequired⟩)
  simpa [getRequirementEndOffset, hcurve, hstate, hfirst, hcomplete, hafter] using hsearch

/-! ### Three zones with a signal after the first one -/

def hundredMeters (id : ℕ) : GenericLinearRange ℕ where
  value := id
  objectBegin := 0
  pathBegin := 100 * id
  length := 100
  objectLength := 100
  length_nonneg := by decide
  objectEnd_le := by decide
  objectBegin_nonneg := Int.natCast_nonneg 0

def entrySignal : PendingSignalData where
  signal := 0
  offset := 100
  sightOffset := 20
  isCurveBased := false

/-- The signal needs the zone that follows it. -/
def nextZone : SignalingInfra where
  getZonePathZone := id
  isConstraining := fun _ zoneIndex _ _ _ => zoneIndex.any (· ≤ 1)
  getETCSFirstRequiredOffset := fun _ _ signalData => signalData.sightOffset

/-- As `extendPath` leaves it, with a stop on the closed signal. -/
def threeZones : SpacingResourceGenerator where
  blockRanges := [hundredMeters 0, hundredMeters 1, hundredMeters 2]
  routeRanges := []
  zoneRanges := [hundredMeters 0, hundredMeters 1, hundredMeters 2]
  stops := [90]
  pendingSignals := [entrySignal]
  zonePaths := [0, 1, 2]
  ongoingZoneRequirements := fun i =>
    if i < 3 then some ⟨100 * i, 100 * i + 100, 100 * i⟩ else none
  isPathComplete := true

/-- A long train at 10 m/s that stops at 90 m until 100 s, simulated up to some point. -/
def stopping (currentTime : ℚ) (currentPathOffset : ℤ) : Callbacks where
  arrivalTimeInRange := fun offset _ =>
    if currentPathOffset < offset then ⊤
    else if offset ≤ 90 then ↑((offset : ℚ) / 10) else ↑((offset : ℚ) / 10 + 91)
  departureTimeFromRange := fun _ _ => ⊤
  departureFromStop := fun offset => if currentPathOffset < offset then ⊤ else (100 : ℚ)
  maxSpeedInRange := fun _ _ => (10 : ℚ)
  currentTime := currentTime
  currentPathOffset := currentPathOffset
  simulationComplete := false

theorem getRequirementEndOffset_eq_threeZones : ∃ last, ∃ h : last < threeZones.zoneRanges.length,
      IsGreatest {i | i < threeZones.zoneRanges.length ∧
        threeZones.requires nextZone (stopping 101 95) ⟨[0, 1, 2], []⟩ entrySignal i = true} last ∧
      threeZones.getRequirementEndOffset nextZone (stopping 101 95) ⟨[0, 1, 2], []⟩ entrySignal =
        some (some threeZones.zoneRanges[last].pathEnd) := by
  have hafter : threeZones.zoneRanges.findIdx? (fun zone => entrySignal.offset ≤ zone.pathBegin) =
      some 1 := by decide
  refine getRequirementEndOffset_eq rfl rfl hafter ?_ rfl
  intro i _ j _ hij
  rw [Bool.le_iff_imp]
  have hrequires : ∀ i, threeZones.requires nextZone (stopping 101 95) ⟨[0, 1, 2], []⟩ entrySignal i =
    decide (i ≤ 1) := fun _ => rfl
  rw [hrequires, hrequires, decide_eq_true_iff, decide_eq_true_iff]
  exact hij.trans

end SpacingResourceGenerator

end Osrd.Conflicts
