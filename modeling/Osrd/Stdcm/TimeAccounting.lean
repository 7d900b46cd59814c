import Osrd.Stdcm.TimeData

/-! Where the time of the search goes: the earliest time a node can be reached is the departure
    time plus the time spent running and stopped, whatever the sequence of calls.

    A delay of the last departure moves the start of the train first and lengthens the last stop by
    the rest. Before the first stop there is no stop to lengthen; the start takes the whole delay
    there, since both bounds are still the same (`Accounted.untilFirstStop`). -/

namespace Osrd.Stdcm

open List
open WithTop hiding some

/-! ### Bounds that may be infinite -/

theorem capped_le (delay : ℚ) : ∀ limit : WithTop ℚ, capped delay limit ≤ delay
  | ⊤ => le_rfl
  | (_ : ℚ) => min_le_right _ _

variable {delay : ℚ}

theorem capped_nonneg (hdelay : 0 ≤ delay) : ∀ {limit : WithTop ℚ}, 0 ≤ limit → 0 ≤ capped delay limit
  | ⊤, _ => hdelay
  | (_ : ℚ), hlimit => le_min (coe_nonneg.mp hlimit) hdelay

theorem capped_le_limit (delay : ℚ) : ∀ limit : WithTop ℚ, (capped delay limit : WithTop ℚ) ≤ limit
  | ⊤ => le_top
  | (_ : ℚ) => coe_le_coe.mpr (min_le_left _ _)

theorem capped_of_le : ∀ {limit : WithTop ℚ}, delay ≤ limit → capped delay limit = delay
  | ⊤, _ => rfl
  | (_ : ℚ), h => min_eq_right (coe_le_coe.mp h)

theorem capped_of_lt : ∀ {limit : WithTop ℚ}, limit < delay → capped delay limit = limit.untopD delay
  | ⊤, h => absurd h not_top_lt
  | (_ : ℚ), h => min_eq_left (coe_lt_coe.mp h).le

theorem sub_nonneg_of_coe_le : ∀ {limit : WithTop ℚ}, delay ≤ limit → 0 ≤ limit - (delay : ℚ)
  | ⊤, _ => le_top
  | (_ : ℚ), h => coe_nonneg.mpr (sub_nonneg.mpr (coe_le_coe.mp h))

theorem sub_le_sub_coe {delay delay' : ℚ} (h : delay ≤ delay') : ∀ limit : WithTop ℚ,
    limit - (delay' : ℚ) ≤ limit - (delay : ℚ)
  | ⊤ => le_top
  | (limit : ℚ) => coe_le_coe.mpr (sub_le_sub_left h limit)

/-- Moving a time and its bound by the same delay. -/
theorem add_sub_coe (time delay : ℚ) : ∀ limit : WithTop ℚ,
    ((time + delay : ℚ) : WithTop ℚ) + (limit - (delay : ℚ)) = time + limit
  | ⊤ => rfl
  | (limit : ℚ) => congrArg WithTop.some (by ring)

/-! ### Stops -/

section Stops

variable {stops : List StopTimeData}

/-- The stops of the first list are the first ones of the second, none of them shorter. -/
def StopsGrow : List StopTimeData → List StopTimeData → Prop
  | [], _ => True
  | _ :: _, [] => False
  | stop :: stops, stop' :: stops' =>
      stop.currentDuration ≤ stop'.currentDuration ∧ StopsGrow stops stops'

theorem stopsGrow_append : ∀ stops more : List StopTimeData, StopsGrow stops (stops ++ more)
  | [], _ => trivial
  | _ :: stops, more => ⟨le_rfl, stopsGrow_append stops more⟩

theorem StopsGrow.refl (stops : List StopTimeData) : StopsGrow stops stops := by
  simpa using stopsGrow_append stops []

theorem StopsGrow.trans : ∀ {as bs cs : List StopTimeData}, StopsGrow as bs → StopsGrow bs cs →
    StopsGrow as cs
  | [], _, _, _, _ => trivial
  | _ :: _, _ :: _, _ :: _, ⟨hab, hrest⟩, ⟨hbc, hrest'⟩ => ⟨hab.trans hbc, hrest.trans hrest'⟩

theorem StopsGrow.concat {stop stop' : StopTimeData} (h : stop.currentDuration ≤ stop'.currentDuration) :
    ∀ stops : List StopTimeData, StopsGrow (stops ++ [stop]) (stops ++ [stop'])
  | [] => ⟨h, trivial⟩
  | _ :: stops => ⟨le_rfl, concat h stops⟩

theorem stopDurations_concat (stops : List StopTimeData) (stop : StopTimeData) :
    stopDurations (stops ++ [stop]) = stopDurations stops + stop.currentDuration := by
  simp [stopDurations]

theorem stopDurations_cons (stop : StopTimeData) (stops : List StopTimeData) :
    stopDurations (stop :: stops) = stop.currentDuration + stopDurations stops := by
  simp [stopDurations]

/-- What the added stop values are, and that their assertion holds. -/
theorem StopsGrow.added : ∀ {stops stops' : List StopTimeData}, StopsGrow stops stops' →
    stops.length ≤ stops'.length ∧
      (∀ value ∈ TimeData.addedStopValues stops (stops'.take stops.length), 0 ≤ value) ∧
      (TimeData.addedStopValues stops (stops'.take stops.length)).sum =
        stopDurations (stops'.take stops.length) - stopDurations stops
  | [], _, _ => ⟨Nat.zero_le _, by simp [TimeData.addedStopValues], by
      simp [TimeData.addedStopValues]⟩
  | stop :: stops, stop' :: stops', ⟨hle, hrest⟩ => by
    obtain ⟨hlength, hnonneg, hsum⟩ := hrest.added
    rw [TimeData.addedStopValues] at hnonneg hsum
    refine ⟨Nat.succ_le_succ hlength, ?_, ?_⟩
    · exact forall_mem_cons.mpr ⟨sub_nonneg.mpr hle, hnonneg⟩
    · rw [TimeData.addedStopValues, length_cons, take_succ_cons, zipWith_cons_cons,
        sum_cons, hsum, stopDurations_cons, stopDurations_cons]
      ring

/-- No stop is shorter than it has to be. -/
def LongEnough (stops : List StopTimeData) : Prop :=
  ∀ stop ∈ stops, stop.minDuration ≤ stop.currentDuration

/-- Lengthening the last stop, by nothing if there is none. -/
theorem lengthenLast_spec {extra : ℚ} (hextra : 0 ≤ extra) (hnone : stops = [] → extra = 0)
    (hlong : LongEnough stops) :
    let stops' := stops.modifyLast (·.withAddedStopTime extra)
    (stops' = [] → stops = []) ∧ StopsGrow stops stops' ∧ LongEnough stops' ∧
      stopDurations stops' = stopDurations stops + extra := by
  rcases eq_nil_or_concat stops with rfl | ⟨init, last, rfl⟩
  · exact ⟨id, trivial, hlong, by rw [hnone rfl, add_zero]; rfl⟩
  have hle : last.currentDuration ≤ (last.withAddedStopTime extra).currentDuration :=
    le_add_of_nonneg_right hextra
  rw [concat_eq_append] at hlong ⊢
  rw [modifyLast_concat]
  refine ⟨fun hnil => by simp at hnil, .concat hle init, ?_, ?_⟩
  · intro stop hstop
    rcases mem_append.mp hstop with hstop | hstop
    · exact hlong stop (mem_append_left _ hstop)
    · obtain rfl := mem_singleton.mp hstop
      exact (hlong last (by simp)).trans hle
  · rw [stopDurations_concat, stopDurations_concat, StopTimeData.withAddedStopTime, add_assoc]

end Stops

namespace TimeData

/-! ### What every call keeps -/

/-- Where the time went, and how late the train may still start. -/
structure Accounted (startTime : ℚ) (maxDepartureDelay : WithTop ℚ) (t : TimeData) : Prop where
  reachable : t.earliestReachableTime = t.departureTime + t.totalRunningTime + t.totalStopDuration
  first_nonneg : 0 ≤ t.maxFirstDepartureDelaying
  first_le : t.maxFirstDepartureDelaying ≤ t.maxDepartureDelayingWithoutConflict
  departure : t.departureTime + t.maxFirstDepartureDelaying ≤ startTime + maxDepartureDelay
  longEnough : LongEnough t.stopTimeData
  untilFirstStop : t.stopTimeData = [] →
    t.maxFirstDepartureDelaying = t.maxDepartureDelayingWithoutConflict

/-- Departures and stops of a later instance. -/
structure Grows (t t' : TimeData) : Prop where
  departure : t.departureTime ≤ t'.departureTime
  stops : StopsGrow t.stopTimeData t'.stopTimeData

theorem Grows.trans {t t' t'' : TimeData} (h : Grows t t') (h' : Grows t' t'') : Grows t t'' :=
  ⟨h.departure.trans h'.departure, h.stops.trans h'.stops⟩

section Step

variable {startTime : ℚ} {maxDelay : WithTop ℚ} {t t' : TimeData}

theorem accounted_startNode (hmax : 0 ≤ maxDelay) :
    Accounted startTime maxDelay (startNode startTime maxDelay) where
  reachable := by simp [startNode, totalStopDuration, stopDurations]
  first_nonneg := hmax
  first_le := le_rfl
  departure := le_rfl
  longEnough := fun _ h => nomatch h
  untilFirstStop := fun _ => rfl

/-- The delay of the last departure, within its bound. -/
structure Delayed (delay : ℚ) (t t' : TimeData) : Prop where
  spent : t'.departureTime + t'.totalStopDuration = t.departureTime + t.totalStopDuration + delay
  first_nonneg : 0 ≤ t'.maxFirstDepartureDelaying
  latest : (t'.departureTime : WithTop ℚ) + t'.maxFirstDepartureDelaying =
    t.departureTime + t.maxFirstDepartureDelaying
  grows : Grows t t'
  longEnough : LongEnough t'.stopTimeData
  untilFirstStop : t'.stopTimeData = [] →
    t'.maxFirstDepartureDelaying = t.maxDepartureDelayingWithoutConflict - (delay : ℚ)

variable (h : Accounted startTime maxDelay t)

include h in
theorem delayLastDeparture_delayed (hdelay : 0 ≤ delay)
    (hlimit : delay ≤ t.maxDepartureDelayingWithoutConflict) :
    Delayed delay t (t.delayLastDeparture delay) := by
  rcases hdelay.eq_or_lt with rfl | hpos
  · rw [delayLastDeparture, if_neg (lt_irrefl _)]
    exact ⟨(add_zero _).symm, h.first_nonneg, rfl, ⟨le_rfl, .refl _⟩, h.longEnough, fun hnil => by
      rw [h.untilFirstStop hnil, coe_zero, sub_zero]⟩
  have hfirst : 0 ≤ capped delay t.maxFirstDepartureDelaying := capped_nonneg hdelay h.first_nonneg
  have hrest : 0 ≤ delay - capped delay t.maxFirstDepartureDelaying := sub_nonneg.mpr (capped_le delay _)
  have hnone : t.stopTimeData = [] → capped delay t.maxFirstDepartureDelaying = delay :=
    fun hnil => capped_of_le (h.untilFirstStop hnil ▸ hlimit)
  obtain ⟨hnil, hgrow, hlong, hsum⟩ := lengthenLast_spec hrest
    (fun hnil => by rw [hnone hnil, sub_self]) h.longEnough
  rw [delayLastDeparture, if_pos hpos]
  refine ⟨?_, sub_nonneg_of_coe_le (capped_le_limit delay _), add_sub_coe _ _ _,
    ⟨le_add_of_nonneg_right hfirst, hgrow⟩, hlong, fun hnil' => ?_⟩
  · simp only [totalStopDuration, hsum]
    ring
  · rw [hnone (hnil hnil'), h.untilFirstStop (hnil hnil')]

include h in
theorem withAddedTime_travel {time : ℚ} (ht' : t.withAddedTime time none none = some t') :
    Accounted startTime maxDelay t' ∧ Grows t t' := by
  cases ht'
  refine ⟨⟨?_, h.first_nonneg, h.first_le, h.departure, h.longEnough, h.untilFirstStop⟩, le_rfl, .refl _⟩
  have hreachable := h.reachable
  simp only [totalStopDuration, Option.getD_none] at hreachable ⊢
  linarith

include h in
theorem withAddedTime_stop {time duration : ℚ} {maxAdditionalStopTime : WithTop ℚ}
    (hmax : 0 ≤ maxAdditionalStopTime)
    (ht' : t.withAddedTime time (some duration) (some maxAdditionalStopTime) = some t') :
    Accounted startTime maxDelay t' ∧ Grows t t' := by
  cases ht'
  refine ⟨⟨?_, le_min h.first_nonneg hmax, min_le_right _ _, ?_, ?_, fun hnil => ?_⟩,
    le_rfl, stopsGrow_append _ _⟩
  · have hreachable := h.reachable
    simp only [totalStopDuration, Option.getD_some, stopDurations_concat] at hreachable ⊢
    linarith
  · exact (add_le_add_right (min_le_left _ _) _).trans h.departure
  · intro stop hstop
    rcases mem_append.mp hstop with hstop | hstop
    · exact h.longEnough stop hstop
    · obtain rfl := mem_singleton.mp hstop
      exact le_rfl
  · simp at hnil

include h in
theorem shifted_spec {timeOfNextConflict maximumDelay : WithTop ℚ} (hdelay : 0 ≤ delay)
    (hmax : 0 ≤ maximumDelay)
    (hleft : maximumDelay ≤ max 0 (t.maxDepartureDelayingWithoutConflict - (delay : ℚ)))
    (ht' : t.shifted delay (capped delay t.maxDepartureDelayingWithoutConflict) timeOfNextConflict
      maximumDelay = some t') :
    Accounted startTime maxDelay t' ∧ Grows t t' := by
  have hlimit := capped_le_limit delay t.maxDepartureDelayingWithoutConflict
  have hd := capped_le delay t.maxDepartureDelayingWithoutConflict
  have hdelayed := delayLastDeparture_delayed h
    (capped_nonneg hdelay (h.first_nonneg.trans h.first_le)) hlimit
  rw [shifted, if_pos hd] at ht'
  cases ht'
  refine ⟨⟨?_, le_min hdelayed.first_nonneg hmax, min_le_right _ _, ?_, hdelayed.longEnough,
    fun hnil => min_eq_right ?_⟩, hdelayed.grows.departure, hdelayed.grows.stops⟩
  · have hreachable := h.reachable
    have hspent := hdelayed.spent
    simp only [totalStopDuration, max_eq_right (sub_nonneg.mpr hd)] at hreachable hspent ⊢
    linarith
  · exact ((add_le_add_right (min_le_left _ _) _).trans hdelayed.latest.le).trans h.departure
  · -- what is left to the start is at least what is left to the last departure
    rw [hdelayed.untilFirstStop hnil]
    exact hleft.trans (max_le (sub_nonneg_of_coe_le hlimit) (sub_le_sub_coe hd _))

include h in
theorem Step.keeps (hstep : Step t t') : Accounted startTime maxDelay t' ∧ Grows t t' := by
  obtain ⟨call, hadmissible, happly⟩ := hstep
  cases call with
  | travel time => exact withAddedTime_travel h happly
  | stop time duration maxAdditionalStopTime =>
    exact withAddedTime_stop h hadmissible.2.2 happly
  | shift delay timeOfNextConflict maximumDelay =>
    obtain ⟨hdelay, hmax, hleft⟩ := hadmissible
    exact shifted_spec h hdelay hmax hleft happly

include h in
theorem Reaches.keeps (hrun : Reaches t t') : Accounted startTime maxDelay t' ∧ Grows t t' := by
  induction hrun with
  | refl => exact ⟨h, le_rfl, .refl _⟩
  | tail _ hstep ih =>
    obtain ⟨haccounted, hgrows⟩ := ih
    obtain ⟨haccounted', hgrows'⟩ := hstep.keeps haccounted
    exact ⟨haccounted', hgrows.trans hgrows'⟩

/-- No assertion of a call fails. -/
theorem Call.apply_isSome (call : Call) : ∃ t', call.apply t = some t' := by
  cases call with
  | travel time => exact ⟨_, rfl⟩
  | stop time duration maxAdditionalStopTime => exact ⟨_, rfl⟩
  | shift delay timeOfNextConflict maximumDelay =>
    rw [Call.apply, shifted, if_pos (capped_le delay _)]
    exact ⟨_, rfl⟩

include h in
theorem getUpdatedEarliestReachableTime_of_grows (hgrows : Grows t t') :
    t.getUpdatedEarliestReachableTime t' = some (t'.departureTime + t.totalRunningTime +
      stopDurations (t'.stopTimeData.take t.stopTimeData.length)) := by
  obtain ⟨hlength, hnonneg, hsum⟩ := hgrows.stops.added
  have hreachable := h.reachable
  rw [totalStopDuration] at hreachable
  rw [getUpdatedEarliestReachableTime, if_neg hlength.not_gt,
    if_pos ⟨sub_nonneg.mpr hgrows.departure, hnonneg⟩, hsum, hreachable]
  congr 1
  ring

/-- The delays `makeSingleEdge` computes are those of a shift. -/
theorem step_of_edgeDelays {delayNeeded : ℚ} {addedDelay timeOfNextConflict : WithTop ℚ}
    (hdelay : 0 ≤ delayNeeded) (hadded : 0 ≤ addedDelay)
    (ht' : t.shifted delayNeeded (t.edgeDelays delayNeeded addedDelay).1 timeOfNextConflict
      (t.edgeDelays delayNeeded addedDelay).2 = some t') : Step t t' := by
  unfold edgeDelays at ht'
  split at ht'
  · next hlt =>
    refine ⟨.shift delayNeeded timeOfNextConflict 0, ⟨hdelay, le_rfl, le_max_left _ _⟩, ?_⟩
    rw [Call.apply, capped_of_lt hlt]
    exact ht'
  · next hle =>
    have hle := not_lt.mp hle
    refine ⟨.shift delayNeeded timeOfNextConflict _, ⟨hdelay,
      le_min (sub_nonneg_of_coe_le hle) hadded, (min_le_left _ _).trans (le_max_right _ _)⟩, ?_⟩
    rw [Call.apply, capped_of_le hle]
    exact ht'

end Step

/-! ### Every sequence of calls -/

/-- From a start node on, no call fails its assertions, the earliest reachable time is accounted for,
    the bounds on the delays hold, and an earlier instance tells its time from the latest one. -/
theorem reaches_accounting (startTime : ℚ) {maxDelay : WithTop ℚ}
    (hmax : 0 ≤ maxDelay) {earlier latest : TimeData}
    (hearlier : Reaches (startNode startTime maxDelay) earlier) (hlatest : Reaches earlier latest) :
    (∀ call : Call, call.Admissible latest → ∃ next, call.apply latest = some next) ∧
      latest.earliestReachableTime =
        latest.departureTime + latest.totalRunningTime + latest.totalStopDuration ∧
      0 ≤ latest.maxFirstDepartureDelaying ∧
      latest.maxFirstDepartureDelaying ≤ latest.maxDepartureDelayingWithoutConflict ∧
      latest.departureTime + latest.maxFirstDepartureDelaying ≤ startTime + maxDelay ∧
      (∀ stop ∈ latest.stopTimeData, stop.minDuration ≤ stop.currentDuration) ∧
      earlier.getUpdatedEarliestReachableTime latest =
        some (latest.departureTime + earlier.totalRunningTime +
          stopDurations (latest.stopTimeData.take earlier.stopTimeData.length)) := by
  obtain ⟨hthen, -⟩ := hearlier.keeps (accounted_startNode hmax)
  obtain ⟨hnow, hgrows⟩ := hlatest.keeps hthen
  exact ⟨fun call _ => call.apply_isSome, hnow.reachable, hnow.first_nonneg, hnow.first_le,
    hnow.departure, hnow.longEnough, getUpdatedEarliestReachableTime_of_grows hthen hgrows⟩

/-- After 60 s of travel and a stop of 30 s that may be 40 s longer. -/
def atStop : TimeData := ⟨90, 40, 10, 130, 60, 0, [⟨30, 30, 10⟩], 0⟩

/-- The next edge is entered 60 s later: 10 s at the start, 30 s at the stop, 20 s on the way. -/
def afterStop : TimeData := ⟨150, 0, 0, ⊤, 80, 10, [⟨60, 30, 10⟩], 40⟩

theorem atStop_updated : Reaches (startNode 0 10) atStop ∧ Reaches atStop afterStop ∧
    atStop.getUpdatedEarliestReachableTime afterStop = some (10 + 60 + stopDurations [⟨60, 30, 10⟩]) := by
  have hearlier : Reaches (startNode 0 10) atStop :=
    .single ⟨.stop 60 30 40, by simp [Call.Admissible], by decide +kernel⟩
  have hlatest : Reaches atStop afterStop :=
    .single ⟨.shift 60 ⊤ 0, by simp [Call.Admissible], by decide +kernel⟩
  have hmax : (0 : WithTop ℚ) ≤ 10 := by decide
  obtain ⟨-, -, -, -, -, -, hupdated⟩ := reaches_accounting 0 hmax hearlier hlatest
  exact ⟨hearlier, hlatest, hupdated⟩

end TimeData

end Osrd.Stdcm
