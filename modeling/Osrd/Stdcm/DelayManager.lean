import Mathlib.Algebra.Order.Archimedean.Basic
import Osrd.Stdcm.BlockAvailability
import Osrd.Stdcm.TimeData

/-! Model of `minimumDelaysPerOpening` (`core/.../stdcm/graph/DelayManager.kt`): the delays with which
    a train may enter a block, one for each opening between two unavailable times.

    The loop asks about one time after the other. An answer moves it to the end of the opening it is
    in, or to the start of the next one, and the internal margin further: it may land inside a later
    opening, and it may jump over a short one. What carries the result is that nothing opens between
    a question and the point an answer refers to (`Clear`). -/

namespace Osrd.Stdcm

open WithTop (coe_le_coe coe_lt_coe coe_add)

variable {ask : ℚ → Availability}

/-- A call of `FailureExplainer.conflictCallback`. -/
structure ConflictCallback where
  timeLost : WithTop ℚ
  orphaned : Bool
  cause : String
deriving DecidableEq

/-- `java.lang.Double.isFinite`, with the finite value. -/
def finiteValue : WithBot (WithTop ℚ) → Option ℚ
  | ((time : ℚ) : WithTop ℚ) => some time
  | _ => none

structure DelayManager where
  maxRunTime : WithTop ℚ
  internalMargin : ℚ

namespace DelayManager

/-- The local variables of `minimumDelaysPerOpening` and the calls it has made. -/
structure OpeningSearch where
  time : WithBot (WithTop ℚ)
  res : Finset ℚ := ∅
  /-- The duration and the cause of the last `Unavailable`. -/
  prevConflict : Option (WithTop ℚ × Option String) := none
  conflictCallbacks : List ConflictCallback := []

/-- The callback about the last conflict, if it has a cause. -/
def explained (orphaned : Bool) : Option (WithTop ℚ × Option String) → List ConflictCallback
  | some (duration, some causedBy) => [⟨duration, orphaned, causedBy⟩]
  | _ => []

section Model

variable (d : DelayManager)

def computeMaximumDelay (data : TimeData) : WithTop ℚ :=
  let maxExtraRunTime := d.maxRunTime - (data.totalRunningTime : ℚ)
  let maxDelayForMaxRunTime := data.maxDepartureDelayingWithoutConflict + maxExtraRunTime
  let maxDelayWithLocalConflict := data.timeOfNextConflictAtLocation - (data.earliestReachableTime : ℚ)
  max 0 (min maxDelayForMaxRunTime maxDelayWithLocalConflict)

/-- The body of the loop after the call of `getLastBlockAvailability` at `time`. -/
def openingTurn (startTime time : ℚ) (s : OpeningSearch) : Availability → OpeningSearch
  | .Available maximumDelay _ =>
      let kept := if (d.internalMargin : WithTop ℚ) ≤ maximumDelay then
          { s with
            res := insert (time - startTime) s.res
            conflictCallbacks := s.conflictCallbacks ++ explained false s.prevConflict }
        else s
      { kept with time := (time : WithTop ℚ) + (maximumDelay + (d.internalMargin : WithTop ℚ)) }
  | .Unavailable duration _ causedBy =>
      { s with
        time := ((time + (duration + d.internalMargin) : WithTop ℚ))
        prevConflict := some (duration, causedBy) }

/-- The loop, `none` when the fuel is out. -/
def openingLoop (getLastBlockAvailability : ℚ → Availability) (startTime : ℚ)
    (maximumDelay : WithTop ℚ) : ℕ → OpeningSearch → Option OpeningSearch
  | 0, _ => none
  | fuel + 1, s =>
      match finiteValue s.time with
      | none => some s
      | some time =>
          if maximumDelay < (time - startTime : ℚ) then some s
          else openingLoop getLastBlockAvailability startTime maximumDelay fuel
            (d.openingTurn startTime time s (getLastBlockAvailability time))

/-- The set of delays, and the calls to the failure explainer. `getLastBlockAvailability` is the
    function of the time for the explorer and the offsets of the call. -/
def minimumDelaysPerOpening (timeData : TimeData) (getLastBlockAvailability : ℚ → Availability)
    (fuel : ℕ) : Option (Finset ℚ × List ConflictCallback) := do
  let s ← d.openingLoop getLastBlockAvailability timeData.earliestReachableTime
    (d.computeMaximumDelay timeData) fuel
    { time := (timeData.earliestReachableTime : WithTop ℚ) }
  some (s.res, s.conflictCallbacks ++ explained (decide (s.res = ∅)) s.prevConflict)

end Model

/-! ### Openings -/

/-- A closed interval of available delays, without end when no later train conflicts. -/
structure Opening where
  start : ℚ
  stop : WithTop ℚ
  start_le_stop : ↑start ≤ stop

namespace Opening

def Has (o : Opening) (delay : ℚ) : Prop := o.start ≤ delay ∧ ↑delay ≤ o.stop

instance (o : Opening) (delay : ℚ) : Decidable (o.Has delay) :=
  inferInstanceAs (Decidable (_ ∧ _))

/-- The first delay that can be added to enter the opening. -/
def first (o : Opening) : ℚ := max o.start 0

end Opening

/-- No delay is in two openings. -/
def Disjoint (openings : List Opening) : Prop :=
  openings.Pairwise fun o o' => ∀ delay, o.Has delay → ¬ o'.Has delay

/-- From `delay` on, `duration` is the distance to the start of the next opening. -/
structure NextOpening (openings : List Opening) (delay : ℚ) (duration : WithTop ℚ) : Prop where
  le_start : ∀ o ∈ openings, delay < o.start → duration ≤ (o.start - delay : ℚ)
  eq_start : duration = ⊤ ∨ ∃ o ∈ openings, delay < o.start ∧ duration = (o.start - delay : ℚ)

/-- `getLastBlockAvailability` answers exactly for the openings. -/
structure Exact (openings : List Opening) (startTime : ℚ)
    (ask : ℚ → Availability) : Prop where
  available : ∀ o ∈ openings, ∀ delay, 0 ≤ delay → o.Has delay → ∃ timeOfNextConflict,
    ask (startTime + delay) =
      .Available ↑(o.stop - (delay : ℚ)) timeOfNextConflict
  unavailable : ∀ delay, 0 ≤ delay → (∀ o ∈ openings, ¬ o.Has delay) →
    ∃ duration firstConflictOffset causedBy,
      ask (startTime + delay) =
        .Unavailable duration firstConflictOffset causedBy ∧
      NextOpening openings delay duration

/-- Each delay is in an opening of its own, as early in it as the margin allows. -/
structure Placed (openings : List Opening) (margin limit : ℚ)
    (delays : Finset ℚ) : Prop where
  le_maximumDelay : ∀ r ∈ delays, r ≤ limit
  inside : ∀ r ∈ delays, ∃ o ∈ openings, o.Has r ∧
    r ≤ o.first + margin ∧ ((r + margin : ℚ) : WithTop ℚ) ≤ o.stop
  single : ∀ o ∈ openings, ∀ r ∈ delays, ∀ r' ∈ delays, o.Has r → o.Has r' → r = r'

/-- What the delays are for: there is one in each opening that is long enough from its first delay
    on. -/
structure OnePerOpening (openings : List Opening) (margin limit : ℚ)
    (delays : Finset ℚ) : Prop extends Placed openings margin limit delays where
  complete : ∀ o ∈ openings, ((o.first + 2 * margin : ℚ) : WithTop ℚ) ≤ o.stop →
    o.start + margin ≤ limit → ∃ r ∈ delays, o.Has r

/-! ### Where a turn of the loop can land -/

/-- Nothing opens between `delay` and `bound`: an opening is around `delay` and ends by `bound`,
    starts from `bound` on, or is over at `delay`. -/
structure Clear (openings : List Opening) (delay : ℚ) (bound : WithTop ℚ) : Prop where
  stop_le : ∀ o ∈ openings, o.Has delay → o.stop ≤ bound
  outside : ∀ o ∈ openings, ¬ o.Has delay → bound ≤ o.start ∨ o.stop < delay

variable {openings : List Opening} {delay : ℚ}

theorem Opening.stop_lt_of_not_has {o : Opening} (hstart : o.start ≤ delay) (hhas : ¬ o.Has delay) :
    o.stop < delay := by
  by_contra hstop
  exact hhas ⟨hstart, not_lt.mp hstop⟩

/-- Two openings that meet are the same. -/
theorem Disjoint.eq_of_has (hdisjoint : Disjoint openings) {o o' : Opening} (ho : o ∈ openings)
    (ho' : o' ∈ openings) {x : ℚ} (hx : o.Has x) (hx' : o'.Has x) : o = o' := by
  by_contra hne
  have hsymm : Std.Symm fun o o' : Opening => ∀ x, o.Has x → ¬ o'.Has x := ⟨fun _ _ h x hx hx' => h x hx' hx⟩
  exact hdisjoint.forall ho ho' hne x hx hx'

/-- In an opening nothing else starts before its end. -/
theorem Disjoint.clear_stop (hdisjoint : Disjoint openings) {o : Opening} (ho : o ∈ openings)
    (hhas : o.Has delay) : Clear openings delay o.stop where
  stop_le := by
    intro o' ho' hhas'
    rw [hdisjoint.eq_of_has ho ho' hhas hhas']
  outside := by
    intro o' ho' hnot
    by_contra hcon
    rw [not_or, not_le, not_lt] at hcon
    obtain ⟨hbefore, hstop⟩ := hcon
    -- the later of the two starts is in both openings
    have hmeet : o.Has (max o.start o'.start) := by
      refine ⟨le_max_left _ _, ?_⟩
      exact max_le o.start_le_stop hbefore.le
    have hmeet' : o'.Has (max o.start o'.start) := by
      refine ⟨le_max_right _ _, ?_⟩
      exact max_le ((coe_le_coe.mpr hhas.1).trans hstop) o'.start_le_stop
    exact hnot (hdisjoint.eq_of_has ho ho' hmeet hmeet' ▸ hhas)

/-- Outside every opening nothing starts before the next one. -/
theorem NextOpening.clear {duration : WithTop ℚ} (hnext : NextOpening openings delay duration)
    (hnone : ∀ o ∈ openings, ¬ o.Has delay) : Clear openings delay (↑delay + duration) where
  stop_le := fun o ho hhas => absurd hhas (hnone o ho)
  outside := by
    intro o ho hnot
    rcases le_or_gt o.start delay with hle | hlt
    · exact .inr (Opening.stop_lt_of_not_has hle hnot)
    · left
      calc (delay : WithTop ℚ) + duration
          ≤ delay + (o.start - delay : ℚ) := by gcongr; exact hnext.le_start o ho hlt
        _ = o.start := by rw [← coe_add]; congr 1; ring

theorem NextOpening.le_add {duration : WithTop ℚ} (hnext : NextOpening openings delay duration) :
    (delay : WithTop ℚ) ≤ delay + duration := by
  rcases hnext.eq_start with rfl | ⟨o, -, hlt, rfl⟩
  · exact le_top
  · exact coe_le_coe.mpr (by linarith)

/-- The delays after a turn. -/
def afterTurn (openings : List Opening) (margin delay : ℚ) (delays : Finset ℚ) : Finset ℚ :=
  if ∃ o ∈ openings, o.Has delay ∧ ((delay + margin : ℚ) : WithTop ℚ) ≤ o.stop
  then insert delay delays else delays

theorem add_sub_stop (startTime delay margin : ℚ) (stop : WithTop ℚ) :
    (((startTime + delay : ℚ) : WithTop ℚ) : WithBot (WithTop ℚ)) +
        (↑(stop - (delay : ℚ)) + (margin : WithTop ℚ)) = ((startTime + (stop + margin) : WithTop ℚ)) := by
  induction stop with
  | top => rfl
  | coe stop =>
    have heq : startTime + delay + (stop - delay + margin) =
        startTime + (stop + margin) := by ring
    exact congrArg (fun time : ℚ => ((time : WithTop ℚ) : WithBot (WithTop ℚ))) heq

theorem margin_le_iff (delay margin : ℚ) (stop : WithTop ℚ) :
    ((margin : WithTop ℚ) : WithBot (WithTop ℚ)) ≤ ↑(stop - (delay : ℚ)) ↔
      ((delay + margin : ℚ) : WithTop ℚ) ≤ stop := by
  rw [WithBot.coe_le_coe]
  induction stop with
  | top => exact iff_of_true le_top le_top
  | coe stop =>
    rw [← WithTop.LinearOrderedAddCommGroup.coe_sub, coe_le_coe, coe_le_coe, le_sub_iff_add_le']

/-- What one turn does: a bound that `Clear` is about, the margin after it as the next time, and the
    delay itself if its opening is long enough from there. -/
theorem openingTurn_spec {d : DelayManager} {startTime : ℚ}
    (hexact : Exact openings startTime ask) (hdisjoint : Disjoint openings)
    (hdelay : 0 ≤ delay) (s : OpeningSearch) :
    ∃ bound : WithTop ℚ, ↑delay ≤ bound ∧ Clear openings delay bound ∧
      (d.openingTurn startTime (startTime + delay) s (ask (startTime + delay))).time =
          ((startTime + (bound + d.internalMargin) : WithTop ℚ)) ∧
      (d.openingTurn startTime (startTime + delay) s (ask (startTime + delay))).res =
          afterTurn openings d.internalMargin delay s.res := by
  by_cases hopen : ∃ o ∈ openings, o.Has delay
  · obtain ⟨o, ho, hhas⟩ := hopen
    obtain ⟨timeOfNextConflict, hanswer⟩ := hexact.available o ho delay hdelay hhas
    refine ⟨o.stop, hhas.2, hdisjoint.clear_stop ho hhas, ?_, ?_⟩
    · rw [hanswer]
      exact add_sub_stop startTime delay d.internalMargin o.stop
    · have hlong : (∃ o' ∈ openings, o'.Has delay ∧
          ((delay + d.internalMargin : ℚ) : WithTop ℚ) ≤ o'.stop) ↔
          ((d.internalMargin : WithTop ℚ) : WithBot (WithTop ℚ)) ≤ ↑(o.stop - (delay : ℚ)) := by
        rw [margin_le_iff]
        refine ⟨?_, fun hle => ⟨o, ho, hhas, hle⟩⟩
        rintro ⟨o', ho', hhas', hle⟩
        rwa [hdisjoint.eq_of_has ho ho' hhas hhas']
      simp only [hanswer, openingTurn, afterTurn, hlong, add_sub_cancel_left]
      split <;> rfl
  · push Not at hopen
    obtain ⟨duration, firstConflictOffset, causedBy, hanswer, hnext⟩ := hexact.unavailable delay hdelay hopen
    refine ⟨delay + duration, hnext.le_add, hnext.clear hopen, ?_, ?_⟩
    · rw [hanswer, add_assoc, ← add_assoc (startTime : WithTop ℚ)]
      rfl
    · rw [hanswer, afterTurn, if_neg (fun ⟨o, ho, hhas, _⟩ => hopen o ho hhas)]
      rfl

/-! ### The loop -/

/-- What holds of the delays found when every delay below `bound` has been dealt with. -/
structure Found (openings : List Opening) (margin limit : ℚ) (delays : Finset ℚ)
    (bound : WithTop ℚ) : Prop extends Placed openings margin limit delays where
  pending : ∀ o ∈ openings, ((o.first + 2 * margin : ℚ) : WithTop ℚ) ≤ o.stop →
    (∃ r ∈ delays, o.Has r) ∨ bound ≤ 0 ∨ bound ≤ (o.start + margin : ℚ)

/-- The loop asks about `delay`: it has just entered the opening it is in, if any, and has left those
    it has a delay for. -/
structure Asking (openings : List Opening) (margin : ℚ) (delays : Finset ℚ)
    (delay : ℚ) : Prop where
  nonneg : 0 ≤ delay
  near : ∀ o ∈ openings, o.Has delay → delay ≤ o.first + margin
  passed : ∀ r ∈ delays, ∀ o ∈ openings, o.Has r → o.stop < delay

section Step

variable {margin limit : ℚ} {delays : Finset ℚ}

theorem Found.onePerOpening {bound : WithTop ℚ} (hfound : Found openings margin limit delays bound)
    (hmaximum : 0 ≤ limit) (hbound : ↑limit < bound) : OnePerOpening openings margin limit delays where
  toPlaced := hfound.toPlaced
  complete := by
    intro o ho hlong hstart
    rcases hfound.pending o ho hlong with hhas | hzero | hle
    · exact hhas
    · exact absurd (hzero.trans (coe_le_coe.mpr hmaximum)) hbound.not_ge
    · exact absurd (hle.trans (coe_le_coe.mpr hstart)) hbound.not_ge

theorem subset_afterTurn : delays ⊆ afterTurn openings margin delay delays := by
  unfold afterTurn
  split
  · exact Finset.subset_insert _ _
  · exact Finset.Subset.refl _

theorem mem_afterTurn {r : ℚ} : r ∈ afterTurn openings margin delay delays ↔ r ∈ delays ∨ r = delay ∧
      ∃ o ∈ openings, o.Has delay ∧ ((delay + margin : ℚ) : WithTop ℚ) ≤ o.stop := by
  unfold afterTurn
  split
  next hlong => rw [Finset.mem_insert, and_iff_left hlong, or_comm]
  next hshort => rw [or_iff_left (fun h => hshort h.2)]

theorem Found.turn (hmargin : 0 < margin) (hfound : Found openings margin limit delays delay)
    (hasking : Asking openings margin delays delay) (hle : delay ≤ limit)
    {bound : WithTop ℚ} (hclear : Clear openings delay bound) :
    Found openings margin limit (afterTurn openings margin delay delays) (bound + margin) where
  le_maximumDelay := by
    intro r hr
    rcases mem_afterTurn.mp hr with hr | ⟨rfl, -⟩
    · exact hfound.le_maximumDelay r hr
    · exact hle
  inside := by
    intro r hr
    rcases mem_afterTurn.mp hr with hr | ⟨rfl, o, ho, hhas, hlong⟩
    · exact hfound.inside r hr
    · exact ⟨o, ho, hhas, hasking.near o ho hhas, hlong⟩
  single := by
    intro o ho r hr r' hr' hhas hhas'
    -- the openings of the earlier delays are over
    rcases mem_afterTurn.mp hr with hmem | ⟨hdelay, -⟩
    · rcases mem_afterTurn.mp hr' with hmem' | ⟨rfl, -⟩
      · exact hfound.single o ho r hmem r' hmem' hhas hhas'
      · exact absurd hhas'.2 (hasking.passed r hmem o ho hhas).not_ge
    · rcases mem_afterTurn.mp hr' with hmem' | ⟨hdelay', -⟩
      · exact absurd (hdelay ▸ hhas).2 (hasking.passed r' hmem' o ho hhas').not_ge
      · exact hdelay.trans hdelay'.symm
  pending := by
    intro o ho hlong
    rcases hfound.pending o ho hlong with ⟨r, hr, hhas⟩ | hpending
    · exact .inl ⟨r, subset_afterTurn hr, hhas⟩
    have hfirst : delay ≤ o.first + margin := by
      have hzero_le : 0 ≤ o.first := le_max_right o.start 0
      have hstart_le : o.start ≤ o.first := le_max_left o.start 0
      rcases hpending with hzero | hle
      · have := coe_le_coe.mp hzero
        linarith
      · have := coe_le_coe.mp hle
        linarith
    have hroom : ((delay + margin : ℚ) : WithTop ℚ) ≤ o.stop := le_trans (coe_le_coe.mpr (by linarith)) hlong
    by_cases hhas : o.Has delay
    · exact .inl ⟨delay, mem_afterTurn.mpr (.inr ⟨rfl, o, ho, hhas, hroom⟩), hhas⟩
    rcases hclear.outside o ho hhas with hstart | hover
    · refine .inr (.inr ?_)
      rw [coe_add]
      gcongr
    · refine absurd (hroom.trans_lt hover) (coe_le_coe.mpr ?_).not_gt
      linarith

theorem Asking.turn (hmargin : 0 < margin)
    (hasking : Asking openings margin delays delay) {bound : ℚ} (hbound : delay ≤ bound)
    (hclear : Clear openings delay bound) :
    Asking openings margin (afterTurn openings margin delay delays) (bound + margin) where
  nonneg := by have := hasking.nonneg; linarith
  near := by
    intro o ho hhas
    by_cases hdelay : o.Has delay
    · have := coe_le_coe.mp (hhas.2.trans (hclear.stop_le o ho hdelay))
      linarith
    rcases hclear.outside o ho hdelay with hstart | hover
    · have := (coe_le_coe.mp hstart).trans (le_max_left o.start 0)
      unfold Opening.first
      linarith
    · have := coe_lt_coe.mp (hhas.2.trans_lt hover)
      linarith
  passed := by
    intro r hr o ho hhas
    have hlt : (bound : WithTop ℚ) < (bound + margin : ℚ) := coe_lt_coe.mpr (by linarith)
    rcases mem_afterTurn.mp hr with hr | ⟨rfl, -⟩
    · exact (hasking.passed r hr o ho hhas).trans_le
        ((coe_le_coe.mpr hbound).trans hlt.le)
    · exact (hclear.stop_le o ho hhas).trans_lt hlt

end Step

section Loop

variable {d : DelayManager} {ask : ℚ → Availability} {startTime limit : ℚ} {s : OpeningSearch}

theorem openingLoop_top (htime : s.time = (⊤ : WithTop ℚ)) (fuel : ℕ) :
    d.openingLoop ask startTime limit (fuel + 1) s = some s := by
  rw [openingLoop, htime]
  rfl

theorem openingLoop_past (htime : s.time = ((startTime + delay : ℚ) : WithTop ℚ))
    (hlt : limit < delay) (fuel : ℕ) : d.openingLoop ask startTime limit (fuel + 1) s = some s := by
  rw [openingLoop, htime]
  refine if_pos ?_
  rw [add_sub_cancel_left]
  exact coe_lt_coe.mpr hlt

theorem openingLoop_turn (htime : s.time = ((startTime + delay : ℚ) : WithTop ℚ))
    (hle : delay ≤ limit) (fuel : ℕ) : d.openingLoop ask startTime limit (fuel + 1) s =
      d.openingLoop ask startTime limit fuel (d.openingTurn startTime (startTime + delay) s
          (ask (startTime + delay))) := by
  rw [openingLoop, htime]
  refine if_neg ?_
  rw [add_sub_cancel_left]
  exact (coe_le_coe.mpr hle).not_gt

/-- More fuel changes nothing. -/
theorem openingLoop_mono {limit : WithTop ℚ} {s' : OpeningSearch} {fuel : ℕ} :
    ∀ {s : OpeningSearch} {more : ℕ}, fuel ≤ more → d.openingLoop ask startTime limit fuel s = some s' →
    d.openingLoop ask startTime limit more s = some s' := by
  induction fuel with
  | zero => intro s more _ hloop; cases hloop
  | succ fuel ih =>
    intro s more hle hloop
    obtain ⟨more, rfl⟩ := Nat.exists_eq_add_of_le' (Nat.one_le_of_lt hle)
    rw [openingLoop] at hloop ⊢
    split at hloop
    · exact hloop
    · split at hloop
      next hfar => rwa [if_pos hfar]
      next hnear =>
        rw [if_neg hnear]
        exact ih (Nat.le_of_succ_le_succ hle) hloop

/-- Every turn takes the loop at least the margin further, so that it ends. -/
theorem openingLoop_onePerOpening (hmargin : 0 < d.internalMargin) (hmaximum : 0 ≤ limit)
    (hexact : Exact openings startTime ask) (hdisjoint : Disjoint openings)
    (fuel : ℕ) : ∀ (s : OpeningSearch) (delay : ℚ), s.time = ((startTime + delay : ℚ) : WithTop ℚ) →
    Found openings d.internalMargin limit s.res delay → Asking openings d.internalMargin s.res delay →
    limit < delay + fuel * d.internalMargin →
    ∃ s', d.openingLoop ask startTime limit (fuel + 1) s = some s' ∧
      OnePerOpening openings d.internalMargin limit s'.res := by
  induction fuel with
  | zero =>
    intro s delay htime hfound hasking hfar
    have hlt : limit < delay := by simpa using hfar
    exact ⟨s, openingLoop_past htime hlt _, hfound.onePerOpening hmaximum (coe_lt_coe.mpr hlt)⟩
  | succ fuel ih =>
    intro s delay htime hfound hasking hfar
    rcases lt_or_ge limit delay with hlt | hle
    · exact ⟨s, openingLoop_past htime hlt _, hfound.onePerOpening hmaximum (coe_lt_coe.mpr hlt)⟩
    obtain ⟨bound, hbound, hclear, htime', hres'⟩ :=
      openingTurn_spec (d := d) hexact hdisjoint hasking.nonneg s
    have hfound' := hfound.turn hmargin hasking hle hclear
    rw [← hres'] at hfound'
    induction bound with
    | top =>
      refine ⟨_, ?_, hfound'.onePerOpening hmaximum (WithTop.coe_lt_top _)⟩
      rw [openingLoop_turn htime hle]
      exact openingLoop_top htime' _
    | coe bound =>
      have hbound' : delay ≤ bound := coe_le_coe.mp hbound
      have hasking' := hasking.turn hmargin hbound' hclear
      rw [← hres'] at hasking'
      have hfar' : limit < bound + d.internalMargin + fuel * d.internalMargin := by
        push_cast at hfar
        linarith
      obtain ⟨s', hloop, hone⟩ := ih _ (bound + d.internalMargin) htime' hfound' hasking' hfar'
      exact ⟨s', (openingLoop_turn htime hle _).trans hloop, hone⟩

end Loop

/-- The loop starts with the delay 0. -/
theorem found_start (openings : List Opening) (margin limit : ℚ) :
    Found openings margin limit ∅ (0 : ℚ) where
  le_maximumDelay := by simp
  inside := by simp
  single := by simp
  pending := by
    intro o ho hlong
    exact .inr (.inl le_rfl)

theorem asking_start (openings : List Opening) {margin : ℚ} (hmargin : 0 < margin) :
    Asking openings margin ∅ 0 where
  nonneg := le_refl 0
  near := by
    intro o ho hhas
    have := le_max_right o.start 0
    unfold Opening.first
    linarith
  passed := by simp

theorem minimumDelaysPerOpening_mono {d : DelayManager} {timeData : TimeData}
    {result : Finset ℚ × List ConflictCallback} {fuel more : ℕ} (hle : fuel ≤ more)
    (hresult : d.minimumDelaysPerOpening timeData ask fuel = some result) :
    d.minimumDelaysPerOpening timeData ask more = some result := by
  obtain ⟨s, hloop, hs⟩ := Option.bind_eq_some_iff.mp hresult
  exact Option.bind_eq_some_iff.mpr ⟨s, openingLoop_mono hle hloop, hs⟩

/-- `minimumDelaysPerOpening` terminates, and its delays are one per opening: none is outside its
    opening or late in it, and no opening with twice the margin from its first delay on is missed. -/
theorem minimumDelaysPerOpening_onePerOpening (d : DelayManager) (timeData : TimeData)
    (openings : List Opening) (ask : ℚ → Availability) (limit : ℚ) (hmargin : 0 < d.internalMargin)
    (hmaximum : d.computeMaximumDelay timeData = limit) (hdisjoint : Disjoint openings)
    (hexact : Exact openings timeData.earliestReachableTime ask) :
    ∃ delays calls turns, OnePerOpening openings d.internalMargin limit delays ∧ ∀ fuel ≥ turns,
        d.minimumDelaysPerOpening timeData ask fuel = some (delays, calls) := by
  obtain ⟨turns, hturns⟩ := exists_nat_gt (limit / d.internalMargin)
  rw [div_lt_iff₀ hmargin] at hturns
  have hnonneg : 0 ≤ limit := by
    rw [← coe_le_coe, ← hmaximum]
    exact le_max_left _ _
  obtain ⟨s, hloop, hone⟩ := openingLoop_onePerOpening hmargin hnonneg hexact hdisjoint turns
    { time := (timeData.earliestReachableTime : WithTop ℚ) } 0 (by rw [add_zero])
    (found_start openings _ _) (asking_start openings hmargin) (by rwa [zero_add])
  refine ⟨s.res, s.conflictCallbacks ++ explained (decide (s.res = ∅)) s.prevConflict, turns + 1,
    hone, fun fuel hfuel => minimumDelaysPerOpening_mono hfuel ?_⟩
  rw [minimumDelaysPerOpening, hmaximum, hloop]
  rfl

/-- The answers for a block with a single opening, without metadata, to a train that may leave from
    the time 0 on. -/
def oneOpening (o : Opening) (time : ℚ) : Availability :=
  if time < o.start then .Unavailable (o.start - time : ℚ) 0 none
  else if ↑time ≤ o.stop then .Available ↑(o.stop - (time : ℚ)) ⊤
  else .Unavailable ⊤ 0 none

theorem oneOpening_exact (o : Opening) : Exact [o] 0 (oneOpening o) where
  available := by
    intro o' ho' delay _ hhas
    rw [List.mem_singleton] at ho'
    subst ho'
    exact ⟨⊤, by rw [zero_add, oneOpening, if_neg hhas.1.not_gt, if_pos hhas.2]⟩
  unavailable := by
    intro delay _ hnone
    rw [zero_add, oneOpening]
    rcases lt_or_ge delay o.start with hlt | hle
    · refine ⟨(o.start - delay : ℚ), 0, none, if_pos hlt, ?_, .inr ⟨o, by simp, hlt, rfl⟩⟩
      intro o' ho' _
      rw [List.mem_singleton.mp ho']
    · have hover := Opening.stop_lt_of_not_has hle (hnone o (by simp))
      refine ⟨⊤, 0, none, ?_, ?_, .inl rfl⟩
      · rw [if_neg hle.not_gt, if_neg hover.not_ge]
      · intro o' ho' hlt
        rw [List.mem_singleton.mp ho'] at hlt
        exact absurd hlt hle.not_gt

/-- A train at the start of its path, which may leave up to 100 s late. -/
def departing : TimeData := TimeData.startNode 0 100

/-- A block that is free from 7 s on is entered there, the margin later. -/
theorem minimumDelaysPerOpening_freeFromSeven :
    let d : DelayManager := ⟨300, 5⟩
    let o : Opening := ⟨7, ⊤, le_top⟩
    ((∃ delays calls turns, OnePerOpening [o] d.internalMargin 400 delays ∧
      ∀ fuel ≥ turns, d.minimumDelaysPerOpening departing (oneOpening o) fuel =
        some (delays, calls)) ∧
    d.minimumDelaysPerOpening departing (oneOpening o) 3 = some ({12}, [])) :=
  ⟨minimumDelaysPerOpening_onePerOpening ⟨300, 5⟩ departing [⟨7, ⊤, le_top⟩] (oneOpening _) 400
    (by decide +kernel) (by decide +kernel) (List.pairwise_singleton _ _) (oneOpening_exact _),
    by decide +kernel⟩

/-- A train that is already in an opening of 11 s, one second before its end, gets no delay for it
    with a margin of 5 s. -/
theorem minimumDelaysPerOpening_aboutToClose :
    let d : DelayManager := ⟨300, 5⟩
    let o : Opening := ⟨-10, (1 : ℚ), by decide +kernel⟩
    0 < d.internalMargin ∧ d.computeMaximumDelay departing = (400 : ℚ) ∧
    Disjoint [o] ∧ Exact [o] departing.earliestReachableTime (oneOpening o) ∧
    ((o.start + 2 * d.internalMargin : ℚ) : WithTop ℚ) ≤ o.stop ∧
    o.start + d.internalMargin ≤ 400 ∧
    ∀ fuel ≥ 3, d.minimumDelaysPerOpening departing (oneOpening o) fuel = some (∅, []) := by
  refine ⟨by decide +kernel, by decide +kernel, List.pairwise_singleton _ _, oneOpening_exact _,
    by decide +kernel, by decide +kernel, ?_⟩
  intro fuel hfuel
  exact minimumDelaysPerOpening_mono hfuel (by decide +kernel)

end DelayManager

end Osrd.Stdcm
