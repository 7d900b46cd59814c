import Osrd.Conflicts.SpacingResourceGenerator

/-! `processUpdate` of `SpacingResourceGenerator` (`core/.../conflicts/SpacingResourceGenerator.kt`): each
    call reports the requirements that are new or were not complete at the last one.

    A requirement begins when the train comes to the offset at which the zone is first required, or
    shortly before it leaves the last stop on a closed signal before the zone. But the stops behind the
    train are dropped, and a signal that is seen later may require the zone earlier. So the begin time
    of a requirement may change from one call to the next; it does not exactly when no call brings such
    a change (`sameBegin_iff`). -/

namespace Osrd.Conflicts

open Osrd.Path (GenericLinearRange)
open Option List Function
open WithTop (coe_le_coe coe_lt_top)

abbrev DISTANCE_MAX : ℤ := 2 ^ 63 - 1

namespace OngoingZoneRequirement

variable (e : OngoingZoneRequirement) (callbacks : Callbacks) (stops : List ℤ)

def lastPreviousStopOffset : Option ℤ := stops.reverse.find? fun offset => offset < e.zoneEntryOffset

def arrivalTime : WithTop ℚ := callbacks.arrivalTimeInRange e.minRequiredOffset DISTANCE_MAX

def minRequirementTime (stop : ℤ) : WithTop ℚ :=
  (callbacks.departureFromStop stop).map (· - Stdcm.CLOSED_SIGNAL_RESERVATION_MARGIN)

def beginTime : WithTop ℚ :=
  match e.lastPreviousStopOffset stops with
  | none => e.arrivalTime callbacks
  | some stop => max (minRequirementTime callbacks stop) (e.arrivalTime callbacks)

/-- The end, and whether the requirement is complete. -/
def endTime : ℚ × Bool :=
  match callbacks.departureTimeFromRange 0 e.zoneExitOffset with
  | ⊤ => (callbacks.currentTime, callbacks.simulationComplete)
  | (endTime : ℚ) =>
      if callbacks.currentTime ≤ endTime then (callbacks.currentTime, callbacks.simulationComplete)
      else (endTime, true)

/-- The outer `none` is a failed `require`. Without a stop the begin time is the arrival time, which is
    not after the current one. -/
def generateRequirement (zoneId : ZoneId) : Option (Option (SpacingRequirement ℚ)) :=
  if callbacks.currentPathOffset < e.minRequiredOffset then some none
  else if callbacks.currentTime < e.arrivalTime callbacks then none
  else
    match e.beginTime callbacks stops with
    | ⊤ => some none
    | (beginTime : ℚ) =>
        if callbacks.currentTime < beginTime then some none
        else if (e.endTime callbacks).1 < beginTime then none
        else some (some ⟨zoneId, beginTime, ↑(e.endTime callbacks).1, (e.endTime callbacks).2⟩)

end OngoingZoneRequirement

namespace SpacingResourceGenerator

section Model

variable (g : SpacingResourceGenerator) (infra : SignalingInfra) (callbacks : Callbacks)

def simulationData : SimulationCacheData := ⟨g.blockRanges.map (·.value), g.routeRanges.map (·.value)⟩

def signalsToProcess : List PendingSignalData :=
  g.pendingSignals.takeWhile fun signal => signal.sightOffset ≤ callbacks.currentPathOffset

/-- The loop over the reversed signals: each one writes its end offset over that of the same signal
    farther on the path. -/
def signalEndOffsets : List PendingSignalData → Option (Option (LogicalSignalId → Option ℤ))
  | [] => some (some fun _ => none)
  | signal :: signals =>
      match signalEndOffsets signals with
      | none => none
      | some none => some none
      | some (some ends) =>
          match g.getRequirementEndOffset infra callbacks g.simulationData signal with
          | none => none
          | some none => some none
          | some (some endOffset) => some (some (update ends signal.signal (some endOffset)))

def requiredOffset (signal : PendingSignalData) : ℤ :=
  if signal.isCurveBased then infra.getETCSFirstRequiredOffset g.simulationData callbacks signal
  else signal.sightOffset

/-- The zones between the signal and the end offset. -/
def requiredZones (signal : PendingSignalData) (endOffset : ℤ) :
    Option (List (GenericLinearRange ZonePathId)) := do
  let ranges ← Path.subRange signal.offset endOffset g.zoneRanges false true true
  some (ranges.filter fun range => range.length ≠ 0)

/-- `getOrPut` and `updateMinRequirementOffset` -/
def updateRequirement (offset : ℤ) (zone : GenericLinearRange ZonePathId) :
    Option SpacingResourceGenerator :=
  if zone.pathBegin < offset then none
  else
    match g.ongoingZoneRequirements zone.value with
    | some e => some { g with
        ongoingZoneRequirements := update g.ongoingZoneRequirements zone.value
          (some { e with minRequiredOffset := min e.minRequiredOffset offset }) }
    | none => some { g with
        zonePaths := g.zonePaths ++ [zone.value]
        ongoingZoneRequirements := update g.ongoingZoneRequirements zone.value
          (some ⟨zone.pathBegin, zone.pathEnd, min zone.pathBegin offset⟩) }

def signalToOngoingRequirements (ends : LogicalSignalId → Option ℤ) (signal : PendingSignalData) :
    Option SpacingResourceGenerator := do
  let zones ← g.requiredZones signal (← ends signal.signal)
  zones.foldlM (updateRequirement · (g.requiredOffset infra callbacks signal)) g

/-- Remove the path up to the next pending signal. -/
def trimmed : SpacingResourceGenerator :=
  let minRelevantPathOffset := (g.pendingSignals.map (·.sightOffset)).min?.getD callbacks.currentPathOffset
  { g with
    blockRanges := g.blockRanges.dropWhile fun range => range.pathEnd < minRelevantPathOffset
    routeRanges := g.routeRanges.dropWhile fun range => range.pathEnd < minRelevantPathOffset
    zoneRanges := g.zoneRanges.dropWhile fun range => range.pathEnd < minRelevantPathOffset }

def generateRequirements : Option (List (ZonePathId × Option (SpacingRequirement ℚ))) :=
  g.zonePaths.mapM fun zonePath =>
    match g.ongoingZoneRequirements zonePath with
    | none => some (zonePath, none)
    | some e => (e.generateRequirement callbacks g.stops (infra.getZonePathZone zonePath)).map
        (zonePath, ·)

def yieldCurrentRequirements : Option (List (SpacingRequirement ℚ) × SpacingResourceGenerator) := do
  let requirements ← g.generateRequirements infra callbacks
  let zonePathsToRemove := (requirements.filter fun r => r.2.any (·.isComplete)).map (·.1)
  some (requirements.filterMap (·.2), { g with
    zonePaths := g.zonePaths.filter (· ∉ zonePathsToRemove)
    ongoingZoneRequirements := fun zonePath =>
      if zonePath ∈ zonePathsToRemove then none else g.ongoingZoneRequirements zonePath
    stops := g.stops.dropWhile (· < callbacks.currentPathOffset) })

/-- The part of `processUpdate` before the requirements are generated. -/
def processSignals : Option (Option SpacingResourceGenerator) :=
  match g.signalEndOffsets infra callbacks (g.signalsToProcess callbacks) with
  | none => none
  | some none => some none
  | some (some ends) => do
      let g' ← (g.signalsToProcess callbacks).foldlM
        (fun h signal => h.signalToOngoingRequirements infra callbacks ends signal) g
      some (some (trimmed { g' with
        pendingSignals := g.pendingSignals.drop (g.signalsToProcess callbacks).length } callbacks))

/-- The state after a call that returns null is the one before. -/
def processUpdate : Option (Option (List (SpacingRequirement ℚ) × SpacingResourceGenerator)) :=
  match g.processSignals infra callbacks with
  | none => none
  | some none => some none
  | some (some g') => (g'.yieldCurrentRequirements infra callbacks).map some

end Model

/-! ### The offsets at which the zones are required -/

section Lowers

variable {g h i : SpacingResourceGenerator} {infra : SignalingInfra} {callbacks : Callbacks}

/-- What the signals do not change. -/
def path (g : SpacingResourceGenerator) := (g.blockRanges, g.routeRanges, g.zoneRanges, g.stops)

/-- The zones stay, each with the highest offset that is not above its own one and is allowed. -/
structure Lowers (allowed : ZonePathId → ℤ → Prop) (g h : SpacingResourceGenerator) : Prop where
  path : h.path = g.path
  zonePaths : ∀ z ∈ g.zonePaths, z ∈ h.zonePaths
  lowered : ∀ z e, g.ongoingZoneRequirements z = some e →
    ∃ e', h.ongoingZoneRequirements z = some e' ∧ e'.zoneEntryOffset = e.zoneEntryOffset ∧
      ∀ k, k ≤ e'.minRequiredOffset ↔ k ≤ e.minRequiredOffset ∧ allowed z k

theorem Lowers.trans {A B C : ZonePathId → ℤ → Prop} (hgh : Lowers A g h) (hhi : Lowers B h i)
    (hC : ∀ z k, C z k ↔ A z k ∧ B z k) : Lowers C g i where
  path := hhi.path.trans hgh.path
  zonePaths z hz := hhi.zonePaths z (hgh.zonePaths z hz)
  lowered z e he := by
    obtain ⟨e₁, he₁, hentry₁, hle₁⟩ := hgh.lowered z e he
    obtain ⟨e₂, he₂, hentry₂, hle₂⟩ := hhi.lowered z e₁ he₁
    refine ⟨e₂, he₂, hentry₂.trans hentry₁, fun k => ?_⟩
    rw [hle₂, hle₁, hC, and_assoc]

theorem lowers_foldlM {α : Type} {f : SpacingResourceGenerator → α → Option SpacingResourceGenerator}
    {allowed : α → ZonePathId → ℤ → Prop} :
    ∀ {as : List α} {h i : SpacingResourceGenerator}, as.foldlM f h = some i → h.path = g.path →
      (∀ h a i, h.path = g.path → f h a = some i → Lowers (allowed a) h i) →
      Lowers (fun z k => ∀ a ∈ as, allowed a z k) h i
  | [], h, i, hi, _, _ => by
    cases hi
    exact ⟨rfl, fun _ hz => hz, fun z e he => ⟨e, he, rfl, by simp⟩⟩
  | a :: as, h, i, hi, hpath, hf => by
    obtain ⟨j, hj, hrest⟩ := bind_eq_some_iff.mp hi
    have hstep := hf h a j hpath hj
    exact hstep.trans (lowers_foldlM hrest (hstep.path.trans hpath) hf) (by simp)

theorem lowers_updateRequirement {offset : ℤ} {zone : GenericLinearRange ZonePathId}
    (hh : g.updateRequirement offset zone = some h) :
    Lowers (fun z k => zone.value = z → k ≤ offset) g h := by
  rw [updateRequirement] at hh
  split at hh
  · cases hh
  split at hh
  next e hold =>
    cases hh
    refine ⟨rfl, fun _ hz => hz, fun z e' he' => ?_⟩
    by_cases hz : z = zone.value
    · subst hz
      cases hold.symm.trans he'
      exact ⟨_, update_self .., rfl, by simp⟩
    · exact ⟨e', (update_of_ne hz ..).trans he', rfl, by simp [Ne.symm hz]⟩
  next hnew =>
    cases hh
    refine ⟨rfl, fun _ hz => mem_append_left _ hz, fun z e he => ?_⟩
    have hz : z ≠ zone.value := by
      rintro rfl
      exact nomatch hnew.symm.trans he
    exact ⟨e, (update_of_ne hz ..).trans he, rfl, by simp [hz.symm]⟩

/-- The signal requires the zone. -/
def Requires (g : SpacingResourceGenerator) (ends : LogicalSignalId → Option ℤ)
    (signal : PendingSignalData) (z : ZonePathId) : Prop :=
  ∃ endOffset zones, ends signal.signal = some endOffset ∧
    g.requiredZones signal endOffset = some zones ∧ ∃ zone ∈ zones, zone.value = z

/-- The zone is required at no lower offset than the given one by the signals of the call. -/
def AllowedBy (g : SpacingResourceGenerator) (infra : SignalingInfra) (callbacks : Callbacks)
    (z : ZonePathId) (k : ℤ) : Prop :=
  ∀ ends, g.signalEndOffsets infra callbacks (g.signalsToProcess callbacks) = some (some ends) →
    ∀ signal ∈ g.signalsToProcess callbacks, g.Requires ends signal z →
      k ≤ g.requiredOffset infra callbacks signal

theorem lowers_signal {ends : LogicalSignalId → Option ℤ} {signal : PendingSignalData}
    (hpath : h.path = g.path) (hi : h.signalToOngoingRequirements infra callbacks ends signal = some i) :
    Lowers (fun z k => g.Requires ends signal z → k ≤ g.requiredOffset infra callbacks signal) h i := by
  simp only [path, Prod.mk.injEq] at hpath
  obtain ⟨hblocks, hroutes, hzones, -⟩ := hpath
  obtain ⟨endOffset, hend, hi⟩ := bind_eq_some_iff.mp hi
  obtain ⟨zones, hrequired, hi⟩ := bind_eq_some_iff.mp hi
  have hzones' : g.requiredZones signal endOffset = some zones := by
    rwa [requiredZones, hzones] at hrequired
  have hoffset : h.requiredOffset infra callbacks signal = g.requiredOffset infra callbacks signal := by
    rw [requiredOffset, requiredOffset, simulationData, hblocks, hroutes, simulationData]
  have hlowers := lowers_foldlM hi rfl fun _ _ _ _ => lowers_updateRequirement
  refine ⟨hlowers.path, hlowers.zonePaths, fun z e he => ?_⟩
  obtain ⟨e', he', hentry, hle⟩ := hlowers.lowered z e he
  refine ⟨e', he', hentry, fun k => (hle k).trans (and_congr_right fun _ => ?_)⟩
  rw [hoffset]
  constructor
  · rintro hall ⟨_, _, hend', hrequired', zone, hzone, rfl⟩
    cases hend.symm.trans hend'
    cases hzones'.symm.trans hrequired'
    exact hall zone hzone rfl
  · exact fun hall zone hzone hz => hall ⟨endOffset, zones, hend, hzones', zone, hzone, hz⟩

/-- The signals of a call lower the offsets of the zones that they require. -/
theorem processSignals_spec (hh : g.processSignals infra callbacks = some (some h)) :
    h.stops = g.stops ∧ (∀ z ∈ g.zonePaths, z ∈ h.zonePaths) ∧
    ∀ z e, g.ongoingZoneRequirements z = some e →
      ∃ e', h.ongoingZoneRequirements z = some e' ∧ e'.zoneEntryOffset = e.zoneEntryOffset ∧
        ∀ k, k ≤ e'.minRequiredOffset ↔ k ≤ e.minRequiredOffset ∧ g.AllowedBy infra callbacks z k := by
  rw [processSignals] at hh
  split at hh
  · cases hh
  · cases hh
  next ends hends =>
    obtain ⟨i, hi, hh⟩ := bind_eq_some_iff.mp hh
    cases some.inj hh
    have hlowers := lowers_foldlM hi rfl fun _ _ _ => lowers_signal
    refine ⟨congrArg (·.2.2.2) hlowers.path, hlowers.zonePaths, fun z e he => ?_⟩
    obtain ⟨e', he', hentry, hle⟩ := hlowers.lowered z e he
    refine ⟨e', he', hentry, fun k => (hle k).trans (and_congr_right fun _ => ?_)⟩
    constructor
    · intro hall ends' hends'
      cases some.inj (hends.symm.trans hends')
      exact hall
    · exact fun hall => hall ends hends

end Lowers

end SpacingResourceGenerator

/-! ### The begin time of one zone -/

/-- A later call describes a longer prefix of the same simulation. -/
structure Extends (c c' : Callbacks) : Prop where
  time : c.currentTime ≤ c'.currentTime
  offset : c.currentPathOffset ≤ c'.currentPathOffset
  arrival : ∀ a b, c.arrivalTimeInRange a b ≠ ⊤ → c'.arrivalTimeInRange a b = c.arrivalTimeInRange a b
  departure : ∀ a, c.departureFromStop a ≠ ⊤ → c'.departureFromStop a = c.departureFromStop a

/-- The train comes to the offsets one after the other. -/
def Callbacks.Forward (c : Callbacks) : Prop := ∀ b, Monotone fun a => c.arrivalTimeInRange a b

namespace OngoingZoneRequirement

variable {e : OngoingZoneRequirement} {c c' : Callbacks} {stops : List ℤ} {zoneId : ZoneId}
  {r : SpacingRequirement ℚ}

theorem lastPreviousStopOffset_eq (x : ℤ) : e.lastPreviousStopOffset stops =
    (e.lastPreviousStopOffset (stops.dropWhile (· < x))).or
      (e.lastPreviousStopOffset (stops.takeWhile (· < x))) := by
  rw [lastPreviousStopOffset, lastPreviousStopOffset, lastPreviousStopOffset, ← find?_append,
    ← reverse_append, takeWhile_append_dropWhile]

theorem arrivalTime_le_beginTime : e.arrivalTime c ≤ e.beginTime c stops := by
  rw [beginTime]
  split
  · exact le_rfl
  · exact le_max_right _ _

theorem generateRequirement_eq_some (h : e.generateRequirement c stops zoneId = some (some r)) :
    e.minRequiredOffset ≤ c.currentPathOffset ∧ e.beginTime c stops = ↑r.beginTime ∧
      r.beginTime ≤ c.currentTime := by
  rw [generateRequirement] at h
  split at h
  · cases h
  next hoffset =>
    split at h
    · cases h
    split at h
    · cases h
    next beginTime hbegin =>
      split at h
      · cases h
      next htime =>
        split at h
        · cases h
        · obtain ⟨⟩ := h
          exact ⟨not_lt.mp hoffset, hbegin, not_lt.mp htime⟩

theorem exists_generateRequirement (hoffset : e.minRequiredOffset ≤ c.currentPathOffset)
    (hbegin : e.beginTime c stops ≤ ↑c.currentTime) (h : e.generateRequirement c stops zoneId ≠ none) :
    ∃ r, e.generateRequirement c stops zoneId = some (some r) := by
  rw [generateRequirement, if_neg hoffset.not_gt,
    if_neg (arrivalTime_le_beginTime.trans hbegin).not_gt] at h ⊢
  split at h
  next htop => exact absurd (htop ▸ hbegin) (coe_lt_top _).not_ge
  next beginTime heq =>
    have hle : beginTime ≤ c.currentTime := coe_le_coe.mp (heq.symm.trans_le hbegin)
    rw [if_neg hle.not_gt] at h ⊢
    split at h
    · exact absurd rfl h
    next hend => exact ⟨_, if_neg hend⟩

theorem arrivalTime_eq (hext : Extends c c') (hbegin : e.beginTime c stops ≤ ↑c.currentTime) :
    e.arrivalTime c' = e.arrivalTime c :=
  hext.arrival _ _ ((arrivalTime_le_beginTime.trans hbegin).trans_lt (coe_lt_top _)).ne

/-- A stop that is left keeps its departure time. -/
theorem minRequirementTime_of_kept (hext : Extends c c')
    (hbegin : e.beginTime c stops ≤ ↑c.currentTime) {stop : ℤ}
    (hkept : e.lastPreviousStopOffset (stops.dropWhile (· < c.currentPathOffset)) = some stop) :
    e.lastPreviousStopOffset stops = some stop ∧
      minRequirementTime c' stop = minRequirementTime c stop := by
  have hstop : e.lastPreviousStopOffset stops = some stop := by
    rw [lastPreviousStopOffset_eq c.currentPathOffset, hkept, some_or]
  refine ⟨hstop, ?_⟩
  rw [beginTime, hstop] at hbegin
  have htime : minRequirementTime c stop ≤ c.currentTime := (le_max_left _ _).trans hbegin
  rw [minRequirementTime, minRequirementTime, hext.departure]
  intro htop
  rw [minRequirementTime, htop] at htime
  exact absurd htime (coe_lt_top _).not_ge

variable {e' : OngoingZoneRequirement}

variable (hext : Extends c c') (hbegin : e.beginTime c stops ≤ ↑c.currentTime)
  (hentry : e'.zoneEntryOffset = e.zoneEntryOffset) (hle : e'.arrivalTime c' ≤ e.arrivalTime c)

include hext hbegin hentry hle in
theorem beginTime_le :
    e'.beginTime c' (stops.dropWhile (· < c.currentPathOffset)) ≤ e.beginTime c stops := by
  have hsame : ∀ stops, e'.lastPreviousStopOffset stops = e.lastPreviousStopOffset stops := by
    simp [lastPreviousStopOffset, hentry]
  rw [beginTime, hsame]
  cases hkept : e.lastPreviousStopOffset (stops.dropWhile (· < c.currentPathOffset)) with
  | none => exact hle.trans arrivalTime_le_beginTime
  | some stop =>
    obtain ⟨hstop, htime⟩ := minRequirementTime_of_kept hext hbegin hkept
    rw [beginTime, hstop]
    exact max_le_max htime.le hle

include hext hbegin hentry hle in
/-- When the begin time stays: if no stop before the zone is left, the last one did not delay it; and
    the arrival time stays, or is not after the one that the stop allows. -/
theorem beginTime_eq_iff :
    e'.beginTime c' (stops.dropWhile (· < c.currentPathOffset)) = e.beginTime c stops ↔
      (e.lastPreviousStopOffset (stops.dropWhile (· < c.currentPathOffset)) = none →
        ∀ stop, e.lastPreviousStopOffset stops = some stop → minRequirementTime c stop ≤ e.arrivalTime c) ∧
      ((∃ stop, e.lastPreviousStopOffset (stops.dropWhile (· < c.currentPathOffset)) = some stop ∧
          e.arrivalTime c ≤ minRequirementTime c stop) ∨ e.arrivalTime c ≤ e'.arrivalTime c') := by
  have hsame : ∀ stops, e'.lastPreviousStopOffset stops = e.lastPreviousStopOffset stops := by
    simp [lastPreviousStopOffset, hentry]
  rw [(beginTime_le hext hbegin hentry hle).ge_iff_eq.symm, beginTime, beginTime, hsame]
  cases hkept : e.lastPreviousStopOffset (stops.dropWhile (· < c.currentPathOffset)) with
  | some stop =>
    obtain ⟨hstop, htime⟩ := minRequirementTime_of_kept hext hbegin hkept
    simp only [hstop, htime, true_and, reduceCtorEq, false_implies, some.injEq, exists_eq_left']
    rw [max_le_iff, and_iff_right (le_max_left _ _), le_max_iff]
  | none =>
    cases hlast : e.lastPreviousStopOffset stops with
    | none => simp
    | some stop =>
      simp only [max_le_iff, forall_const, some.injEq, forall_eq', reduceCtorEq, false_and,
        exists_false, false_or]
      exact ⟨fun h => ⟨h.1.trans hle, h.2⟩, fun h => ⟨h.1.trans h.2, h.2⟩⟩

end OngoingZoneRequirement

/-! ### From one call to the next -/

namespace SpacingResourceGenerator

open OngoingZoneRequirement (minRequirementTime)

variable (infra : SignalingInfra)

/-- The requirement of the zone that the call reports. -/
def reported (g : SpacingResourceGenerator) (c : Callbacks) (z : ZonePathId) :
    Option (SpacingRequirement ℚ) := do
  let h ← (g.processSignals infra c).join
  if z ∈ h.zonePaths then
    (h.ongoingZoneRequirements z).bind fun e =>
      (e.generateRequirement c h.stops (infra.getZonePathZone z)).join
  else none

def Reports (g : SpacingResourceGenerator) (c : Callbacks) (z : ZonePathId) (r : SpacingRequirement ℚ) :
    Prop :=
  g.reported infra c z = some r

/-- The zone is reported with this begin time until it is complete. -/
def Keeps (z : ZonePathId) (beginTime : ℚ) : SpacingResourceGenerator → List Callbacks → Prop
  | _, [] => True
  | g, c :: calls =>
      match g.processUpdate infra c with
      | none => True
      | some none => Keeps z beginTime g calls
      | some (some (_, g')) => (∀ r, g.Reports infra c z r → r.beginTime = beginTime) ∧
          ((∀ r, g.Reports infra c z r → r.isComplete = false) → Keeps z beginTime g' calls)

/-- Every requirement is reported with one begin time until it is complete. -/
def SameBegin : SpacingResourceGenerator → List Callbacks → Prop
  | _, [] => True
  | g, c :: calls =>
      match g.processUpdate infra c with
      | none => True
      | some none => SameBegin g calls
      | some (some (_, g')) =>
          (∀ z r, g.Reports infra c z r → r.isComplete = false → Keeps infra z r.beginTime g' calls) ∧
            SameBegin g' calls

/-- From the call `c` to the call `c'`: if no stop before the zone is left, the train left the last one
    at most the margin after it came to where the zone is required; and the signals that the train sees
    now do not require the zone earlier, unless a stop before it does not allow that. -/
def Unmoved (g : SpacingResourceGenerator) (c : Callbacks) (g' : SpacingResourceGenerator)
    (c' : Callbacks) (z : ZonePathId) : Prop :=
  ∀ e, g'.ongoingZoneRequirements z = some e →
    (e.lastPreviousStopOffset g'.stops = none → ∀ stop, e.lastPreviousStopOffset g.stops = some stop →
      minRequirementTime c stop ≤ e.arrivalTime c) ∧
    ((∃ stop, e.lastPreviousStopOffset g'.stops = some stop ∧
        e.arrivalTime c ≤ minRequirementTime c stop) ∨
      ∀ ends, g'.signalEndOffsets infra c' (g'.signalsToProcess c') = some (some ends) →
        ∀ signal ∈ g'.signalsToProcess c', g'.Requires ends signal z →
          e.arrivalTime c ≤ c'.arrivalTimeInRange (g'.requiredOffset infra c' signal) DISTANCE_MAX)

/-- `Unmoved` up to the next call that returns a result. -/
def NextUnmoved (g : SpacingResourceGenerator) (c : Callbacks) (g' : SpacingResourceGenerator)
    (z : ZonePathId) : List Callbacks → Prop
  | [] => True
  | c' :: calls =>
      match g'.processUpdate infra c' with
      | none => True
      | some none => NextUnmoved g c g' z calls
      | some (some _) => Unmoved infra g c g' c' z

def Steady : SpacingResourceGenerator → List Callbacks → Prop
  | _, [] => True
  | g, c :: calls =>
      match g.processUpdate infra c with
      | none => True
      | some none => Steady g calls
      | some (some (_, g')) =>
          (∀ z r, g.Reports infra c z r → r.isComplete = false → NextUnmoved infra g c g' z calls) ∧
            Steady g' calls

variable {infra} {g g' g'' : SpacingResourceGenerator} {c c' : Callbacks} {z : ZonePathId}
  {r r' : SpacingRequirement ℚ} {res res' : List (SpacingRequirement ℚ)}

theorem reports_iff : g.Reports infra c z r ↔
    ∃ h, g.processSignals infra c = some (some h) ∧ z ∈ h.zonePaths ∧
      ∃ e, h.ongoingZoneRequirements z = some e ∧
        e.generateRequirement c h.stops (infra.getZonePathZone z) = some (some r) := by
  simp [Reports, reported, bind_eq_some_iff, join_eq_some_iff]

theorem processUpdate_spec (hg : g.processUpdate infra c = some (some (res, g'))) :
    ∃ h requirements, g.processSignals infra c = some (some h) ∧
      h.generateRequirements infra c = some requirements ∧ g' = { h with
        zonePaths := h.zonePaths.filter (· ∉ (requirements.filter fun r => r.2.any (·.isComplete)).map (·.1))
        ongoingZoneRequirements := fun zonePath =>
          if zonePath ∈ (requirements.filter fun r => r.2.any (·.isComplete)).map (·.1) then none
          else h.ongoingZoneRequirements zonePath
        stops := h.stops.dropWhile (· < c.currentPathOffset) } := by
  rw [processUpdate] at hg
  split at hg
  · cases hg
  · cases hg
  next h hh =>
    obtain ⟨out, hout, heq⟩ := map_eq_some_iff.mp hg
    obtain ⟨requirements, hrequirements, hyield⟩ := bind_eq_some_iff.mp hout
    cases heq
    obtain ⟨⟩ := hyield
    exact ⟨h, requirements, hh, hrequirements, rfl⟩

theorem generateRequirement_of_mem {e : OngoingZoneRequirement}
    {requirements : List (ZonePathId × Option (SpacingRequirement ℚ))}
    {r? : Option (SpacingRequirement ℚ)} (h : g.generateRequirements infra c = some requirements)
    (he : g.ongoingZoneRequirements z = some e) (hmem : (z, r?) ∈ requirements) :
    e.generateRequirement c g.stops (infra.getZonePathZone z) = some r? := by
  obtain ⟨z', -, hz'⟩ := (Partial.mem_mapM_iff h).mp hmem
  split at hz'
  next hnone =>
    obtain ⟨⟩ := hz'
    exact nomatch hnone.symm.trans he
  next e' he' =>
    obtain ⟨r', hr', heq⟩ := map_eq_some_iff.mp hz'
    obtain ⟨⟩ := heq
    cases he'.symm.trans he
    exact hr'

theorem Reports.stays (hg : g.processUpdate infra c = some (some (res, g')))
    (hr : g.Reports infra c z r) (hincomplete : r.isComplete = false) :
    z ∈ g'.zonePaths ∧ g'.stops = g.stops.dropWhile (· < c.currentPathOffset) ∧
      ∃ e, g'.ongoingZoneRequirements z = some e ∧ e.minRequiredOffset ≤ c.currentPathOffset ∧
        e.beginTime c g.stops = ↑r.beginTime ∧ r.beginTime ≤ c.currentTime := by
  obtain ⟨h, requirements, hh, hrequirements, rfl⟩ := processUpdate_spec hg
  obtain ⟨h', hh', hz, e, he, hr⟩ := reports_iff.mp hr
  cases some.inj (hh.symm.trans hh')
  obtain ⟨hstops, -, -⟩ := processSignals_spec hh
  have hkept : z ∉ (requirements.filter fun r => r.2.any (·.isComplete)).map (·.1) := by
    intro hmem
    obtain ⟨⟨_, r?⟩, hfilter, rfl⟩ := mem_map.mp hmem
    obtain ⟨hmem, hcomplete⟩ := mem_filter.mp hfilter
    cases (generateRequirement_of_mem hrequirements he hmem).symm.trans hr
    exact Bool.false_ne_true (hincomplete.symm.trans hcomplete)
  refine ⟨mem_filter.mpr ⟨hz, by simpa using hkept⟩, ?_, e, ?_⟩
  · rw [hstops]
  · rw [hstops] at hr
    exact ⟨(if_neg hkept).trans he, OngoingZoneRequirement.generateRequirement_eq_some hr⟩

/-- A requirement that is not complete is reported again, with the same begin time exactly when nothing
    has moved it. -/
theorem Reports.next (hg : g.processUpdate infra c = some (some (res, g')))
    (hr : g.Reports infra c z r) (hincomplete : r.isComplete = false) (hext : Extends c c')
    (hforward : c'.Forward) (hg' : g'.processUpdate infra c' = some (some (res', g''))) :
    ∃ r', g'.Reports infra c' z r' ∧ (r'.beginTime = r.beginTime ↔ Unmoved infra g c g' c' z) := by
  obtain ⟨hz, hstops, e, he, hoffset, hbegin, htime⟩ := hr.stays hg hincomplete
  obtain ⟨h, requirements, hh, hrequirements, -⟩ := processUpdate_spec hg'
  obtain ⟨hstops', hzones, hlowered⟩ := processSignals_spec hh
  obtain ⟨e', he', hentry, hle⟩ := hlowered z e he
  obtain ⟨hmin, hallowed⟩ := (hle _).mp le_rfl
  have hbegin' : e.beginTime c g.stops ≤ ↑c.currentTime := hbegin.trans_le (coe_le_coe.mpr htime)
  have harrival := OngoingZoneRequirement.arrivalTime_eq hext hbegin'
  have hearlier : e'.arrivalTime c' ≤ e.arrivalTime c := (hforward _ hmin).trans harrival.le
  have hbeginTime := OngoingZoneRequirement.beginTime_eq_iff hext hbegin' hentry hearlier
  have hnotLater := OngoingZoneRequirement.beginTime_le hext hbegin' hentry hearlier
  rw [← hstops] at hbeginTime hnotLater
  -- the zone is reported again
  obtain ⟨⟨z', r?⟩, hr?⟩ := Partial.exists_of_mapM hrequirements (hzones z hz)
  have hsome : e'.generateRequirement c' g'.stops (infra.getZonePathZone z) ≠ none := by
    rw [he', hstops'] at hr?
    intro hnone
    simp only [hnone, map_none, reduceCtorEq] at hr?
  obtain ⟨r', hr'⟩ := OngoingZoneRequirement.exists_generateRequirement
    (hmin.trans (hoffset.trans hext.offset))
    (hnotLater.trans (hbegin'.trans (coe_le_coe.mpr hext.time))) hsome
  refine ⟨r', reports_iff.mpr ⟨h, hh, hzones z hz, e', he', hstops' ▸ hr'⟩, ?_⟩
  rw [hbegin, (OngoingZoneRequirement.generateRequirement_eq_some hr').2.1, WithTop.coe_inj] at hbeginTime
  -- the arrival time stays exactly when no signal requires the zone earlier
  have hsignals : e.arrivalTime c ≤ e'.arrivalTime c' ↔
      ∀ ends, g'.signalEndOffsets infra c' (g'.signalsToProcess c') = some (some ends) →
        ∀ signal ∈ g'.signalsToProcess c', g'.Requires ends signal z →
          e.arrivalTime c ≤ c'.arrivalTimeInRange (g'.requiredOffset infra c' signal) DISTANCE_MAX := by
    constructor
    · intro hle' ends hends signal hsignal hrequires
      exact hle'.trans (hforward _ (hallowed ends hends signal hsignal hrequires))
    · intro hall
      by_contra hnot
      refine absurd ((hle (e'.minRequiredOffset + 1)).mpr ⟨?_, ?_⟩) (by omega)
      · by_contra hge
        obtain heq : e'.minRequiredOffset = e.minRequiredOffset := by omega
        exact hnot (by rw [← harrival, OngoingZoneRequirement.arrivalTime, ← heq]; exact le_rfl)
      · intro ends hends signal hsignal hrequires
        by_contra hge
        have heq := le_antisymm (by omega) (hallowed ends hends signal hsignal hrequires)
        have hle' := hall ends hends signal hsignal hrequires
        rw [heq] at hle'
        exact hnot hle'
  rw [hbeginTime, hsignals]
  constructor
  · intro hmoved e₁ he₁
    cases he.symm.trans he₁
    exact hmoved
  · exact fun hmoved => hmoved e he

/-- A requirement keeps its begin time when the next call that returns a result does not move it. -/
theorem keeps_iff (hg : g.processUpdate infra c = some (some (res, g')))
    (hr : g.Reports infra c z r) (hincomplete : r.isComplete = false) :
    ∀ {calls : List Callbacks}, (∀ c' ∈ calls, Extends c c' ∧ c'.Forward) → SameBegin infra g' calls →
      (Keeps infra z r.beginTime g' calls ↔ NextUnmoved infra g c g' z calls)
  | [], _, _ => Iff.rfl
  | c' :: calls, hcalls, hsame => by
    obtain ⟨⟨hext, hforward⟩, hcalls⟩ := forall_mem_cons.mp hcalls
    rw [SameBegin] at hsame
    rw [Keeps, NextUnmoved]
    cases hg' : g'.processUpdate infra c' with
    | none => exact Iff.rfl
    | some out =>
      rw [hg'] at hsame
      cases out with
      | none => exact keeps_iff hg hr hincomplete hcalls hsame
      | some out =>
        obtain ⟨r', hr', hiff⟩ := hr.next hg hincomplete hext hforward hg'
        constructor
        · intro hkeeps
          exact hiff.mp (hkeeps.1 r' hr')
        · intro hmoved
          have hbegin := hiff.mpr hmoved
          refine ⟨fun r₁ hr₁ => ?_, fun hall => ?_⟩
          · rw [some.inj (hr₁.symm.trans hr'), hbegin]
          · rw [← hbegin]
            exact hsame.1 z r' hr' (hall r' hr')

/-- The begin times do not change exactly when no call moves one of them. -/
theorem sameBegin_iff : ∀ {calls : List Callbacks} {g : SpacingResourceGenerator},
    calls.Pairwise Extends → (∀ c ∈ calls, c.Forward) → (SameBegin infra g calls ↔ Steady infra g calls)
  | [], _, _, _ => Iff.rfl
  | c :: calls, g, hext, hforward => by
    obtain ⟨hfirst, hext⟩ := pairwise_cons.mp hext
    obtain ⟨-, hforward⟩ := forall_mem_cons.mp hforward
    rw [SameBegin, Steady]
    cases hg : g.processUpdate infra c with
    | none => exact Iff.rfl
    | some out =>
      cases out with
      | none => exact sameBegin_iff hext hforward
      | some out =>
        refine (and_congr_left fun hsame => ?_).trans (and_congr_right fun _ =>
          sameBegin_iff hext hforward)
        refine forall_congr' fun z => forall_congr' fun r => forall_congr' fun hr =>
          forall_congr' fun hincomplete => ?_
        exact keeps_iff hg hr hincomplete (fun c' hc' => ⟨hfirst c' hc', hforward c' hc'⟩) hsame

/-! ### A train that has left its stop -/

theorem stopping_extends {t t' : ℚ} {x x' : ℤ} (ht : t ≤ t') (hx : x ≤ x') :
    Extends (stopping t x) (stopping t' x') where
  time := ht
  offset := hx
  arrival a b h := by
    obtain ⟨ha, -⟩ := ite_ne_left_iff.mp h
    simp [stopping, ha, ((not_lt.mp ha).trans hx).not_gt]
  departure a h := by
    obtain ⟨ha, -⟩ := ite_ne_left_iff.mp h
    simp [stopping, ha, ((not_lt.mp ha).trans hx).not_gt]

theorem stopping_forward (t : ℚ) (x : ℤ) : (stopping t x).Forward := by
  intro _ a b hab
  have hab' : (a : ℚ) / 10 ≤ b / 10 := by
    rw [div_le_div_iff_of_pos_right (by norm_num)]
    exact_mod_cast hab
  by_cases hb : x < b
  · exact le_of_le_of_eq le_top (if_pos hb).symm
  · have ha : ¬ x < a := (hab.trans (not_lt.mp hb)).not_gt
    simp only [stopping]
    split_ifs with h₁ h₂
    · exact coe_le_coe.mpr hab'
    · exact coe_le_coe.mpr (by linarith)
    · exact absurd (hab.trans ‹_›) h₁
    · exact coe_le_coe.mpr (by linarith)

/-- Two calls while the train stands at its stop. -/
theorem sameBegin_iff_stopping : Steady nextZone threeZones [stopping 81 90, stopping 85 90] := by
  refine (sameBegin_iff (pairwise_pair.mpr (stopping_extends (by norm_num) le_rfl))
    (by simp [stopping_forward])).mp ?_
  have hpaths : (threeZones.processSignals nextZone (stopping 81 90)).join.map (·.zonePaths) =
      some [0, 1, 2] := by decide +kernel
  have hkept : ∀ z ∈ [0, 1, 2], (threeZones.reported nextZone (stopping 81 90) z).map (·.beginTime) =
      ((threeZones.processUpdate nextZone (stopping 81 90)).join.bind fun out =>
        out.2.reported nextZone (stopping 85 90) z).map (·.beginTime) := by decide +kernel
  have hlast : ∀ g, SameBegin nextZone g [stopping 85 90] := by
    intro g
    rw [SameBegin]
    split <;> simp [SameBegin, Keeps]
  rw [SameBegin]
  split
  · trivial
  · exact hlast _
  next hg =>
    refine ⟨fun z r hr _ => ?_, hlast _⟩
    obtain ⟨h, hh, hz, -⟩ := reports_iff.mp hr
    rw [hh] at hpaths
    have hbegin := hkept z (some.inj hpaths ▸ hz)
    rw [hg, show threeZones.reported nextZone (stopping 81 90) z = some r from hr] at hbegin
    rw [Keeps]
    split
    · trivial
    · trivial
    · refine ⟨fun r' hr' => ?_, fun _ => trivial⟩
      exact some.inj ((congrArg (Option.map _) hr'.symm).trans hbegin.symm)

/-- The stop delays the zone behind it in the first call, but not in the second one. -/
theorem not_sameBegin_stopping : [stopping 101 95, stopping 102 98].Pairwise Extends ∧
    (∀ c ∈ [stopping 101 95, stopping 102 98], c.Forward) ∧
    ¬ SameBegin nextZone threeZones [stopping 101 95, stopping 102 98] := by
  refine ⟨pairwise_pair.mpr (stopping_extends (by norm_num) (by norm_num)),
    by simp [stopping_forward], fun hsame => ?_⟩
  have hfirst : (threeZones.reported nextZone (stopping 101 95) 1).map
      (fun r => (r.beginTime, r.isComplete)) = some (80, false) := by decide +kernel
  have hsecond : ((threeZones.processUpdate nextZone (stopping 101 95)).join.bind fun out =>
      out.2.reported nextZone (stopping 102 98) 1).map (·.beginTime) = some 2 := by decide +kernel
  have hresult : ((threeZones.processUpdate nextZone (stopping 101 95)).join.bind fun out =>
      (out.2.processUpdate nextZone (stopping 102 98)).join).isSome := by decide +kernel
  obtain ⟨r, hr, hvalue⟩ := map_eq_some_iff.mp hfirst
  obtain ⟨hbegin, hincomplete⟩ := Prod.mk.inj hvalue
  obtain ⟨out', hg'⟩ := isSome_iff_exists.mp hresult
  obtain ⟨out, hg, hg'⟩ := bind_eq_some_iff.mp hg'
  rw [join_eq_some_iff] at hg hg'
  rw [hg] at hsecond
  obtain ⟨r', hr', hbegin'⟩ := map_eq_some_iff.mp hsecond
  rw [SameBegin, hg] at hsame
  have hkeeps := hsame.1 1 r hr hincomplete
  rw [Keeps, hg'] at hkeeps
  have heq := hkeeps.1 r' hr'
  rw [hbegin, hbegin'] at heq
  norm_num at heq

end SpacingResourceGenerator

end Osrd.Conflicts
