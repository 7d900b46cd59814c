import Mathlib.Algebra.Order.Field.Basic
import Osrd.Lib.TreeRangeMap
import Osrd.Stdcm.TimeData

/-! Model of `VisitedRangeMap` and `VisitedRange`
    (`core/.../stdcm/graph/visited_node_tracking/VisitedRangeMap.kt`, `VisitedRange.kt`): at what cost
    has a time been visited? Costs are compared exactly.

    `isVisited` checks that the stored ranges leave no gap and compares the costs at the two ends of
    every intersection. Here it is shown to compare them at every time, and just before every time
    (`isVisited_eq_true_iff`). -/

namespace Osrd.Stdcm

open TreeRangeMap Prod.Lex RangeMap List
open WithTop (coe_lt_coe coe_add coe_le_coe ne_top_iff_exists)

/-! ### Model -/

/-- `bestTravelTimeEstimation`, then `totalStopDuration`. -/
abbrev DetailedCostAtTime := WithTop ℚ ×ₗ WithTop ℚ

structure LinearFunction where
  y0 : ℚ
deriving DecidableEq

def LinearFunction.apply (f : LinearFunction) (x : WithTop ℚ) : WithTop ℚ := f.y0 + x

inductive VisitedRange
  | VisitedWithDepartureTimeChange (baseCost stopTime : ℚ)
  | VisitedWithAddedStopTime (visitedWithStopTime : LinearFunction) (baseCost : ℚ)
  | VisitedWithAddedTravelTime (visitedWithTravelTime : LinearFunction) (stopTime : ℚ)
deriving DecidableEq

namespace VisitedRange

def evaluateAtTime (time : WithTop ℚ) : VisitedRange → DetailedCostAtTime
  | VisitedWithDepartureTimeChange baseCost stopTime => toLex (↑baseCost, ↑stopTime)
  | VisitedWithAddedStopTime visitedWithStopTime baseCost =>
      toLex (↑baseCost, visitedWithStopTime.apply time)
  | VisitedWithAddedTravelTime visitedWithTravelTime stopTime =>
      toLex (visitedWithTravelTime.apply time, ↑stopTime)

def getLowestCostOnRange (timeRange : Range (WithTop ℚ)) (v : VisitedRange) : DetailedCostAtTime :=
  v.evaluateAtTime (endpoint timeRange.lower)

def getHighestCostOnRange (timeRange : Range (WithTop ℚ)) (v : VisitedRange) : DetailedCostAtTime :=
  v.evaluateAtTime (endpoint timeRange.upper)

def isVisited (v : VisitedRange) (timeRange : Range (WithTop ℚ)) (visitingRange : VisitedRange) : Bool :=
  decide (v.getLowestCostOnRange timeRange ≤ visitingRange.getLowestCostOnRange timeRange ∧
    v.getHighestCostOnRange timeRange ≤ visitingRange.getHighestCostOnRange timeRange)

/-- `minBy` takes the first one when the costs are equal. -/
def mergeWith (v other : VisitedRange) (timeRange : Range (WithTop ℚ)) : VisitedRange :=
  if other.getLowestCostOnRange timeRange < v.getLowestCostOnRange timeRange then other else v

end VisitedRange

abbrev VisitedRangeMap := RangeMap (WithTop ℚ) VisitedRange

variable {newValues : VisitedRangeMap}

instance : DecidableEq (Range (WithTop ℚ)) := fun r s =>
  decidable_of_iff (r.lower = s.lower ∧ r.upper = s.upper) (by cases r; cases s; simp)

namespace VisitedRangeMap

/-- `putRange` of `markAsVisited`. From an infinite start on there is nothing to put, and the value,
    which depends on the start, is not used. -/
def putRange (start stop : WithTop ℚ) (value : ℚ → VisitedRange) (map : VisitedRangeMap) :
    VisitedRangeMap :=
  match start with
  | ⊤ => map
  | (start : ℚ) =>
      if h : ↑start < stop then
        let range := Range.closedOpen (start : WithTop ℚ) stop h
        map.merge range (value start) fun a b => a.mergeWith b range
      else map

/-- `markAsVisited` of a new map; `none` is the exception of `Range.closed`. -/
def markAsVisited (startTime endRangeDepartureTimeChange endRangeExtraStopTime
    endRangeExtraTravelTime : WithTop ℚ) (totalStopDuration nodeCost : ℚ) : Option VisitedRangeMap :=
  if h : startTime ≤ endRangeDepartureTimeChange then
    some <|
      putRange endRangeExtraStopTime endRangeExtraTravelTime
        (fun start => .VisitedWithAddedTravelTime ⟨nodeCost - start⟩ totalStopDuration) <|
      putRange endRangeDepartureTimeChange endRangeExtraStopTime
        (fun start => .VisitedWithAddedStopTime ⟨totalStopDuration - start⟩ nodeCost) <|
      empty.put
        (Range.closed startTime endRangeDepartureTimeChange h)
        (.VisitedWithDepartureTimeChange nodeCost totalStopDuration)
  else none

/-- The loop of `isVisited` over the stored ranges; `none` is the failed assertion. -/
def isVisitedFrom (newValues : VisitedRangeMap) : WithTop ℚ →
    List (Entry (WithTop ℚ) VisitedRange) → Option Bool
  | _, [] => some true
  | expectedNextRangeStart, visitedEntry :: entries =>
      let rangeStart := endpoint visitedEntry.range.lower
      if rangeStart < expectedNextRangeStart then none
      else if expectedNextRangeStart < rangeStart then some false
      else if (newValues.subRangeMap visitedEntry.range).all fun newEntry =>
          visitedEntry.value.isVisited newEntry.range newEntry.value then
        isVisitedFrom newValues (endpoint visitedEntry.range.upper) entries
      else some false

def isVisited (map newValues : VisitedRangeMap) : Option Bool :=
  match span newValues.entries with
  | none => some true
  | some visitingRange =>
      match span (map.subRangeMap visitingRange) with
      | none => some false
      | some subMapSpan =>
          if visitingRange ≠ subMapSpan then some false
          else isVisitedFrom newValues (endpoint visitingRange.lower) (map.subRangeMap visitingRange)

end VisitedRangeMap

/-! ### Costs at the ends of a range and between them -/

variable {place : Place (WithTop ℚ)}

namespace VisitedRange

/-- The travel time does not depend on the time. -/
def ConstantTravelTime : VisitedRange → Prop
  | VisitedWithAddedTravelTime _ _ => False
  | _ => True

variable {s t : WithTop ℚ}

section Costs

variable {v x : VisitedRange}

theorem apply_le_apply (f : LinearFunction) (h : s ≤ t) : f.apply s ≤ f.apply t := by
  unfold LinearFunction.apply
  gcongr

theorem apply_lt (f : LinearFunction) (h : s < t) {c : ℚ} (hle : f.apply t ≤ c) : f.apply s < c := by
  refine lt_of_lt_of_le ?_ hle
  induction t with
  | top => exact absurd hle (WithTop.coe_lt_top c).not_ge
  | coe t =>
    obtain ⟨s, rfl⟩ := ne_top_iff_exists.mp h.ne_top
    rw [coe_lt_coe] at h
    simp only [LinearFunction.apply, ← coe_add, coe_lt_coe]
    linarith

variable {f f' : LinearFunction}

/-- Two linear functions are in the same order everywhere. -/
theorem apply_le_apply_of_coe {s : ℚ} (h : f.apply s ≤ f'.apply s) (t : WithTop ℚ) :
    f.apply t ≤ f'.apply t := by
  have hy0 : f.y0 ≤ f'.y0 := by
    simp only [LinearFunction.apply, ← coe_add, coe_le_coe] at h
    linarith
  exact add_le_add (coe_le_coe.mpr hy0) le_rfl

theorem le_of_toLex_le {a b c d : WithTop ℚ} (h : toLex (a, b) ≤ toLex (c, d)) : a ≤ c := by
  rcases toLex_le_toLex.mp h with hlt | ⟨heq, -⟩
  · exact hlt.le
  · exact heq.le

theorem exists_coe_between {lo : ℚ} {up : WithTop ℚ} (h : ↑lo < up) : ∃ t : ℚ, lo < t ∧ ↑t < up := by
  obtain ⟨t, hlo, hup⟩ := exists_between h
  obtain ⟨t, rfl⟩ := ne_top_iff_exists.mp hup.ne_top
  exact ⟨t, coe_lt_coe.mp hlo, hup⟩

/-- Costs grow with the time. -/
theorem evaluateAtTime_mono (v : VisitedRange) (h : s ≤ t) :
    v.evaluateAtTime s ≤ v.evaluateAtTime t := by
  cases v with
  | VisitedWithDepartureTimeChange baseCost stopTime => exact le_rfl
  | VisitedWithAddedStopTime f baseCost =>
    exact toLex_mono ⟨le_rfl, apply_le_apply f h⟩
  | VisitedWithAddedTravelTime f stopTime =>
    exact toLex_mono ⟨apply_le_apply f h, le_rfl⟩

/-- Stop times that are in order at one time are in order at every time. -/
theorem evaluateAtTime_le_of_stops {baseCost baseCost' : ℚ} {s : ℚ}
    (h : (VisitedWithAddedStopTime f baseCost).evaluateAtTime s ≤
      (VisitedWithAddedStopTime f' baseCost').evaluateAtTime s)
    (t : WithTop ℚ) : (VisitedWithAddedStopTime f baseCost).evaluateAtTime t ≤
      (VisitedWithAddedStopTime f' baseCost').evaluateAtTime t := by
  rcases toLex_le_toLex.mp h with hlt | ⟨heq, hle⟩
  · exact toLex_le_toLex.mpr (.inl hlt)
  · exact toLex_le_toLex.mpr (.inr ⟨heq, apply_le_apply_of_coe hle t⟩)

/-- Before a time at which the travel time is no higher than a constant it is below it. -/
theorem evaluateAtTime_le_of_travel {stopTime baseCost : ℚ} (hst : s < t)
    (h : (VisitedWithAddedTravelTime f stopTime).evaluateAtTime t ≤
      (VisitedWithAddedStopTime f' baseCost).evaluateAtTime t) :
    (VisitedWithAddedTravelTime f stopTime).evaluateAtTime s ≤
      (VisitedWithAddedStopTime f' baseCost).evaluateAtTime s :=
  toLex_le_toLex.mpr (.inl (apply_lt f hst (le_of_toLex_le h)))

/-- Costs that are in order at the two ends of a range are in order between them. -/
theorem evaluateAtTime_le_between (hx : x.ConstantTravelTime) {lo up t : WithTop ℚ} (hlo : lo ≤ t)
    (hup : t ≤ up) (hlowest : v.evaluateAtTime lo ≤ x.evaluateAtTime lo)
    (hhighest : v.evaluateAtTime up ≤ x.evaluateAtTime up) :
    v.evaluateAtTime t ≤ x.evaluateAtTime t := by
  cases x with
  | VisitedWithDepartureTimeChange baseCost' stopTime' =>
    exact (v.evaluateAtTime_mono hup).trans hhighest
  | VisitedWithAddedStopTime f' baseCost' =>
    cases v with
    | VisitedWithDepartureTimeChange baseCost stopTime =>
      exact hlowest.trans (evaluateAtTime_mono _ hlo)
    | VisitedWithAddedStopTime f baseCost =>
      induction lo with
      | top => rwa [top_le_iff.mp hlo]
      | coe lo => exact evaluateAtTime_le_of_stops hlowest t
    | VisitedWithAddedTravelTime f stopTime =>
      rcases eq_or_lt_of_le hup with rfl | hlt
      · exact hhighest
      · exact evaluateAtTime_le_of_travel hlt hhighest
  | VisitedWithAddedTravelTime f' stopTime' => exact hx.elim

/-- Costs that are in order just after a time are in order at that time. -/
theorem evaluateAtTime_le_start (hx : x.ConstantTravelTime) {lo : ℚ} {up : WithTop ℚ} (hlt : ↑lo < up)
    (hle : ∀ t : ℚ, lo < t → ↑t < up → v.evaluateAtTime t ≤ x.evaluateAtTime t) :
    v.evaluateAtTime lo ≤ x.evaluateAtTime lo := by
  obtain ⟨t, hlo, hup⟩ := exists_coe_between hlt
  have hlo' : (lo : WithTop ℚ) < t := coe_lt_coe.mpr hlo
  have ht := hle t hlo hup
  cases x with
  | VisitedWithDepartureTimeChange baseCost' stopTime' =>
    exact (v.evaluateAtTime_mono hlo'.le).trans ht
  | VisitedWithAddedStopTime f' baseCost' =>
    cases v with
    | VisitedWithDepartureTimeChange baseCost stopTime =>
      rcases toLex_le_toLex.mp ht with hcost | ⟨heq, -⟩
      · exact toLex_le_toLex.mpr (.inl hcost)
      · refine toLex_le_toLex.mpr (.inr ⟨heq, ?_⟩)
        by_contra hstop
        -- some time later the stop duration would still be too low
        have hlate : lo < stopTime - f'.y0 := by
          simp only [LinearFunction.apply, ← coe_add, coe_le_coe] at hstop
          linarith
        obtain ⟨t', hafter, hbefore⟩ := exists_coe_between
          (lt_min hlt (coe_lt_coe.mpr hlate))
        obtain ⟨hup', hearly⟩ := lt_min_iff.mp hbefore
        rcases toLex_le_toLex.mp (hle t' hafter hup') with hcost | ⟨-, hduration⟩
        · exact hcost.ne heq
        · simp only [LinearFunction.apply, ← coe_add, coe_le_coe, coe_lt_coe] at hearly hduration
          linarith
    | VisitedWithAddedStopTime f baseCost => exact evaluateAtTime_le_of_stops ht lo
    | VisitedWithAddedTravelTime f stopTime => exact evaluateAtTime_le_of_travel hlo' ht
  | VisitedWithAddedTravelTime f' stopTime' => exact hx.elim

/-- Costs that are in order from some time on are in order at infinity. -/
theorem evaluateAtTime_le_top (hx : x.ConstantTravelTime) {a : ℚ}
    (hle : ∀ t : ℚ, a < t → v.evaluateAtTime t ≤ x.evaluateAtTime t) :
    v.evaluateAtTime ⊤ ≤ x.evaluateAtTime ⊤ := by
  -- a cost that grows with the time does not stay below a constant
  have hgrows : ∀ (f : LinearFunction) (c : ℚ), ∃ t : ℚ, a < t ∧ ↑c < f.apply t := by
    intro f c
    refine ⟨max a (c - f.y0) + 1, ?_, ?_⟩
    · have := le_max_left a (c - f.y0)
      linarith
    · have := le_max_right a (c - f.y0)
      simp only [LinearFunction.apply, ← coe_add, coe_lt_coe]
      linarith
  have ht := hle (a + 1) (by linarith)
  cases v with
  | VisitedWithDepartureTimeChange baseCost stopTime => exact ht.trans (x.evaluateAtTime_mono le_top)
  | VisitedWithAddedStopTime f baseCost =>
    cases x with
    | VisitedWithDepartureTimeChange baseCost' stopTime' =>
      obtain ⟨t, hat, hgt⟩ := hgrows f stopTime'
      rcases toLex_le_toLex.mp (hle t hat) with hcost | ⟨-, hstop⟩
      · exact toLex_le_toLex.mpr (.inl hcost)
      · exact absurd hstop hgt.not_ge
    | VisitedWithAddedStopTime f' baseCost' => exact evaluateAtTime_le_of_stops ht ⊤
    | VisitedWithAddedTravelTime f' stopTime' => exact hx.elim
  | VisitedWithAddedTravelTime f stopTime =>
    have htop : ∀ c : ℚ, (∀ t : ℚ, a < t → f.apply t ≤ c) → False := by
      intro c hc
      obtain ⟨t, hat, hgt⟩ := hgrows f c
      exact absurd (hc t hat) hgt.not_ge
    cases x with
    | VisitedWithDepartureTimeChange baseCost' stopTime' =>
      exact (htop baseCost' fun t hat => le_of_toLex_le (hle t hat)).elim
    | VisitedWithAddedStopTime f' baseCost' =>
      exact (htop baseCost' fun t hat => le_of_toLex_le (hle t hat)).elim
    | VisitedWithAddedTravelTime f' stopTime' => exact hx.elim

theorem exists_evaluateAtTime (v : VisitedRange) (t : ℚ) :
    ∃ cost stops : ℚ, v.evaluateAtTime t = toLex (↑cost, ↑stops) := by
  cases v with
  | VisitedWithDepartureTimeChange baseCost stopTime => exact ⟨_, _, rfl⟩
  | VisitedWithAddedStopTime f baseCost => exact ⟨_, f.y0 + t, rfl⟩
  | VisitedWithAddedTravelTime f stopTime => exact ⟨f.y0 + t, _, rfl⟩

/-- A lower cost leaves some time to wait. -/
theorem exists_gap (v : VisitedRange) {t cost stops : ℚ} (h : toLex (↑cost, ↑stops) < v.evaluateAtTime t) :
    ∃ δ : ℚ, 0 < δ ∧ ∀ e < δ, toLex (↑cost, ↑(stops + e)) < v.evaluateAtTime t := by
  obtain ⟨cost', stops', hv⟩ := v.exists_evaluateAtTime t
  rw [hv] at h ⊢
  rcases toLex_lt_toLex.mp h with hlt | ⟨heq, hlt⟩
  · exact ⟨1, one_pos, fun _ _ => toLex_lt_toLex.mpr (.inl hlt)⟩
  · rw [coe_lt_coe] at hlt
    refine ⟨stops' - stops, sub_pos.mpr hlt, fun e he => ?_⟩
    exact toLex_lt_toLex.mpr (.inr ⟨heq, coe_lt_coe.mpr (by linarith)⟩)

end Costs

/-! ### The check of one intersection -/

/-- The place of a time, or the place just before it. -/
def PlaceOf (t : WithTop ℚ) (place : Place (WithTop ℚ)) : Prop :=
  place = atKey t ∨ place = beforeKey t

section Places

variable {v x : VisitedRange} {r : Range (WithTop ℚ)}

/-- A time that a range has a place of is between its ends. -/
theorem endpoint_le_of_placeOf {t : WithTop ℚ}
    (hplace : PlaceOf t place) (hhas : r.Has place) : endpoint r.lower ≤ t ∧ t ≤ endpoint r.upper := by
  rcases hplace with rfl | rfl
  · obtain ⟨hlower, hupper⟩ := has_atKey.mp hhas
    exact ⟨endpoint_le_endpoint hlower, endpoint_le_endpoint hupper.le⟩
  · obtain ⟨hlower, hupper⟩ := has_beforeKey.mp hhas
    exact ⟨endpoint_le_endpoint hlower.le, endpoint_le_endpoint hupper⟩

theorem le_of_above_mem (hplace : PlaceOf t place) (h : above s ∈ place) :
    s ≤ t := by
  rcases hplace with rfl | rfl
  · exact (above_le_below.mp h).le
  · exact (above_lt_below.mp h).le

/-- The end of a range has one of its places in the range. -/
theorem exists_placeOf_upper (r : Range (WithTop ℚ)) :
    ∃ place, PlaceOf (endpoint r.upper) place ∧ r.Has place := by
  have hlt := r.lower_lt_upper
  rcases cut_cases r.upper with hupper | hupper
  · refine ⟨_, .inr rfl, has_beforeKey.mpr ?_⟩
    rw [← hupper]
    exact ⟨hlt, le_rfl⟩
  · refine ⟨_, .inl rfl, has_atKey.mpr ⟨?_, ?_⟩⟩
    · rw [hupper] at hlt
      rcases cut_cases r.lower with hlower | hlower
      · rw [hlower] at hlt ⊢
        exact below_le_below.mpr (below_lt_above.mp hlt)
      · rw [hlower] at hlt ⊢
        exact above_le_below.mpr (above_lt_above.mp hlt)
    · conv_rhs => rw [hupper]
      exact below_lt_above.mpr le_rfl

/-- A range that is open at its start goes on for a while. -/
theorem has_atKey_of_open {a : WithTop ℚ} (hlower : r.lower = above a) :
    a < endpoint r.upper ∧ ∀ t, a < t → t < endpoint r.upper → r.Has (atKey t) := by
  have hlt := r.lower_lt_upper
  rw [hlower] at hlt
  constructor
  · rcases cut_cases r.upper with hupper | hupper
    · exact above_lt_below.mp (hupper ▸ hlt)
    · exact above_lt_above.mp (hupper ▸ hlt)
  · intro t hat htb
    refine has_atKey.mpr ⟨hlower ▸ above_le_below.mpr hat, ?_⟩
    rcases cut_cases r.upper with hupper | hupper
    · rw [hupper]
      exact below_lt_below.mpr htb
    · rw [hupper]
      exact below_lt_above.mpr htb.le

/-- The costs at the two ends of a range are in order when they are at every place in it. -/
theorem isVisited_iff (hx : x.ConstantTravelTime) : v.isVisited r x = true ↔
    ∀ t place, PlaceOf t place → r.Has place → v.evaluateAtTime t ≤ x.evaluateAtTime t := by
  rw [isVisited, decide_eq_true_iff]
  constructor
  · rintro ⟨hlowest, hhighest⟩ t place hplace hhas
    obtain ⟨hlo, hup⟩ := endpoint_le_of_placeOf hplace hhas
    exact evaluateAtTime_le_between hx hlo hup hlowest hhighest
  · intro h
    constructor
    · rcases cut_cases r.lower with hlower | hlower
      · refine h _ _ (.inl rfl) (has_atKey.mpr ?_)
        rw [← hlower]
        exact ⟨le_rfl, r.lower_lt_upper⟩
      · obtain ⟨hlt, hbetween⟩ := has_atKey_of_open hlower
        obtain ⟨lo, hlo⟩ := ne_top_iff_exists.mp hlt.ne_top
        rw [← hlo] at hlt hbetween
        rw [getLowestCostOnRange, getLowestCostOnRange, ← hlo]
        refine evaluateAtTime_le_start hx hlt fun t hat htb => ?_
        exact h t _ (.inl rfl) (hbetween t (coe_lt_coe.mpr hat) htb)
    · obtain ⟨place, hplace, hhas⟩ := exists_placeOf_upper r
      exact h _ place hplace hhas

end Places

end VisitedRange

/-! ### The loop of `isVisited` -/

namespace VisitedRangeMap

open VisitedRange (PlaceOf)

/-- Each entry starts at the time where the one before ends. -/
def NoGap : WithTop ℚ → List (Entry (WithTop ℚ) VisitedRange) → Prop
  | _, [] => True
  | expectedNextRangeStart, e :: entries =>
      endpoint e.range.lower = expectedNextRangeStart ∧ NoGap (endpoint e.range.upper) entries

theorem isVisitedFrom_eq_true_iff :
    ∀ {entries : List (Entry (WithTop ℚ) VisitedRange)} {expected : WithTop ℚ},
    isVisitedFrom newValues expected entries = some true ↔ NoGap expected entries ∧
      ∀ e ∈ entries, ∀ n ∈ newValues.subRangeMap e.range, e.value.isVisited n.range n.value = true
  | [], _ => by simp [isVisitedFrom, NoGap]
  | e :: entries, expected => by
    rw [isVisitedFrom, NoGap, forall_mem_cons]
    rcases lt_trichotomy (endpoint e.range.lower) expected with hlt | heq | hgt
    · simp only [hlt, hlt.ne, if_true, reduceCtorEq, false_and]
    · simp only [heq, lt_irrefl, if_false, true_and]
      split
      next hall =>
        rw [all_eq_true] at hall
        rw [isVisitedFrom_eq_true_iff]
        exact ⟨fun h => ⟨h.1, hall, h.2⟩, fun h => ⟨h.1, h.2.2⟩⟩
      next hall =>
        rw [Bool.not_eq_true, all_eq_false] at hall
        obtain ⟨n, hn, hnot⟩ := hall
        simp only [Option.some.injEq, Bool.false_eq_true, false_iff]
        exact fun h => hnot (h.2.1 n hn)
    · simp only [hgt.le.not_gt, hgt, hgt.ne', if_true, if_false, Option.some.injEq,
        Bool.false_eq_true, false_and]

/-- A map with no range that is open at its start and does not go on something else. -/
def LeftClosed (m : VisitedRangeMap) : Prop :=
  ∀ t, m.Covers (LowerSet.Iic (above t)) → m.Covers (atKey t)

/-- Two cuts at the same time. -/
theorem cuts_of_endpoint_eq {c d : Cut (WithTop ℚ)} (h : endpoint c = endpoint d)
    (hlt : c < d) : c = below (endpoint d) ∧ d = above (endpoint d) := by
  rcases cut_cases c with hc | hc <;> rcases cut_cases d with hd | hd <;>
    rw [h] at hc
  · exact absurd (hc.trans hd.symm) hlt.ne
  · exact ⟨hc, hd⟩
  · rw [hc, hd] at hlt
    exact absurd (above_lt_below.mp hlt) (lt_irrefl _)
  · exact absurd (hc.trans hd.symm) hlt.ne

/-- Where no entry is missing before the start of another one, no gap in time is no gap at all. -/
theorem contiguous_of_noGap : ∀ {entries : List (Entry (WithTop ℚ) VisitedRange)}
    {lower upper : Cut (WithTop ℚ)}, RangeMap.Inside lower entries upper → NoGap (endpoint lower) entries →
    (entries = [] → lower = upper) → (∀ e, entries.getLast? = some e → e.range.upper = upper) →
    (∀ t v, Holds entries (LowerSet.Iic (above t)) v → lower ≤ below t →
      ∃ w, Holds entries (atKey t) w) → Contiguous lower entries upper
  | [], _, _, _, _, hnil, _, _ => hnil rfl
  | e :: entries, lower, upper, hinside, ⟨hstart, hnoGap⟩, _, hlast, hclosed => by
    obtain ⟨hlower, -⟩ := hinside.bounds e mem_cons_self
    have hlt := e.range.lower_lt_upper
    constructor
    · refine le_antisymm ?_ hlower
      by_contra hnot
      -- the entry would be open at its start, and nothing before it
      obtain ⟨hlower', he⟩ := cuts_of_endpoint_eq hstart.symm (not_le.mp hnot)
      obtain ⟨w, e', he', hhas, -⟩ := hclosed (endpoint e.range.lower) e.value
        (holds_cons.mpr (.inl ⟨⟨he.le, not_le.mpr (he ▸ hlt)⟩, rfl⟩)) hlower'.le
      have hle : e.range.lower ≤ e'.range.lower := by
        rcases mem_cons.mp he' with rfl | he'
        · exact le_rfl
        · exact hlt.le.trans (hinside.tail.bounds e' he').1
      have hafter := he ▸ (hle.trans (has_atKey.mp hhas).1)
      exact lt_irrefl _ (above_le_below.mp hafter)
    · refine contiguous_of_noGap hinside.tail hnoGap ?_ ?_ ?_
      · rintro rfl
        exact hlast e rfl
      · intro e' he'
        obtain ⟨rest, rfl⟩ := getLast?_eq_some_iff.mp he'
        exact hlast e' (by rw [← cons_append, getLast?_append, getLast?_singleton]; rfl)
      · intro t v hv hle
        obtain ⟨w, hw⟩ := hclosed t v (holds_cons.mpr (.inr hv))
          (hlower.trans (hlt.le.trans hle))
        rcases holds_cons.mp hw with ⟨hhas, -⟩ | hw
        · exact absurd hle (not_le.mpr (has_atKey.mp hhas).2)
        · exact ⟨w, hw⟩

theorem noGap_of_contiguous : ∀ {entries : List (Entry (WithTop ℚ) VisitedRange)}
    {lower upper : Cut (WithTop ℚ)}, Contiguous lower entries upper → NoGap (endpoint lower) entries
  | [], _, _, _ => trivial
  | _ :: _, _, _, ⟨he, h⟩ => ⟨congrArg endpoint he, noGap_of_contiguous h⟩

section IsVisited

variable {m newValues : VisitedRangeMap} {r : Range (WithTop ℚ)}

/-- The checks of the boundaries and of the gaps. -/
theorem span_and_noGap_iff (hm : m.LeftClosed) :
    span (m.subRangeMap r) = some r ∧ NoGap (endpoint r.lower) (m.subRangeMap r) ↔
      ∀ place, r.Has place → m.Covers place := by
  have hinside := m.inside_subRangeMap r
  constructor
  · rintro ⟨hspan, hnoGap⟩ place hhas
    obtain ⟨⟨first, hfirst, -⟩, last, hlast, hupper⟩ := span_eq_some.mp hspan
    have hcontiguous := contiguous_of_noGap hinside hnoGap
      (fun hnil => by rw [hnil] at hfirst; cases hfirst)
      (fun e he => by rwa [Option.some.inj (he.symm.trans hlast)])
      (fun t v hv hle => by
        obtain ⟨hv, hhas⟩ := holds_subRangeMap.mp hv
        obtain ⟨w, hw⟩ := hm t ⟨v, hv⟩
        have hlt : below t < r.upper := (below_lt_above.mpr le_rfl).trans (not_le.mp hhas.2)
        exact ⟨w, holds_subRangeMap.mpr ⟨hw, has_atKey.mpr ⟨hle, hlt⟩⟩⟩)
    obtain ⟨v, hv⟩ := hcontiguous.holds hhas.1 hhas.2
    exact ⟨v, (holds_subRangeMap.mp hv).1⟩
  · intro hcovers
    have hcontiguous := contiguous_of_holds r.lower_lt_upper.le hinside
      fun c hlower hupper => by
        have hhas : r.Has (LowerSet.Iic c) := ⟨hlower, hupper.not_ge⟩
        obtain ⟨v, hv⟩ := hcovers _ hhas
        exact ⟨v, holds_subRangeMap.mpr ⟨hv, hhas⟩⟩
    exact ⟨hcontiguous.span_eq, noGap_of_contiguous hcontiguous⟩

/-- The checks of the costs. -/
theorem costs_iff (hspan : span newValues.entries = some r)
    (hnew : ∀ n ∈ newValues.entries, n.value.ConstantTravelTime) :
    (∀ e ∈ m.subRangeMap r, ∀ n ∈ newValues.subRangeMap e.range, e.value.isVisited n.range n.value = true) ↔
      ∀ t place, PlaceOf t place → ∀ v x, m.HoldsAt place v → newValues.HoldsAt place x →
        v.evaluateAtTime t ≤ x.evaluateAtTime t := by
  constructor
  · rintro hcosts t place hplace v x hv hx
    obtain ⟨n₀, hn₀, hhas₀, rfl⟩ := hx
    obtain ⟨⟨first, hfirst, hlower⟩, last, hlast, hupper⟩ := span_eq_some.mp hspan
    have hbounds := (newValues.ordered.inside hfirst hlast).bounds n₀ hn₀
    rw [hlower, hupper] at hbounds
    have hr : r.Has place := ⟨place.lower hbounds.1 hhas₀.1, fun h => hhas₀.2 (place.lower hbounds.2 h)⟩
    obtain ⟨e, he, hhas, rfl⟩ := holds_subRangeMap.mpr ⟨hv, hr⟩
    obtain ⟨n, hn, hhas', hvalue⟩ := holds_subRangeMap.mpr
      ⟨(⟨n₀, hn₀, hhas₀, rfl⟩ : newValues.HoldsAt place n₀.value), hhas⟩
    have hvisited := hcosts e he n hn
    rw [hvalue] at hvisited
    exact (VisitedRange.isVisited_iff (hnew n₀ hn₀)).mp hvisited t place hplace hhas'
  · intro hcosts e he n hn
    obtain ⟨n₀, hn₀, -, hvalue⟩ := mem_restrict.mp hn
    refine (VisitedRange.isVisited_iff (hvalue ▸ hnew n₀ hn₀)).mpr fun t place hplace hhas => ?_
    obtain ⟨hx, hhas'⟩ := holds_subRangeMap.mp ⟨n, hn, hhas, rfl⟩
    obtain ⟨hv, -⟩ := holds_subRangeMap.mp ⟨e, he, hhas', rfl⟩
    exact hcosts t place hplace _ _ hv hx

/-- `isVisited` is true when the map says something at every place of the new values, and at every
    time, or just before it, at no higher cost. -/
theorem isVisited_eq_true_iff (hm : m.LeftClosed) (hspan : span newValues.entries = some r)
    (hnew : ∀ n ∈ newValues.entries, n.value.ConstantTravelTime) :
    m.isVisited newValues = some true ↔ (∀ place, r.Has place → m.Covers place) ∧
      ∀ t place, PlaceOf t place → ∀ v x, m.HoldsAt place v → newValues.HoldsAt place x →
        v.evaluateAtTime t ≤ x.evaluateAtTime t := by
  rw [← span_and_noGap_iff hm, ← costs_iff hspan hnew, and_assoc, ← isVisitedFrom_eq_true_iff]
  simp only [isVisited, hspan]
  constructor
  · intro h
    split at h
    · cases h
    next s hsub =>
      split at h
      · cases h
      next heq => exact ⟨hsub.trans (congrArg some (not_not.mp heq).symm), h⟩
  · rintro ⟨hsub, h⟩
    simpa only [hsub, ne_eq, not_true_eq_false, if_false] using h

end IsVisited

/-! ### What `markAsVisited` makes -/

section Mark

variable {place : Place (WithTop ℚ)} {w : VisitedRange}

/-- `putRange` fills what is free when what is there costs no more at the start. -/
theorem holdsAt_putRange {start stop : WithTop ℚ} {value : ℚ → VisitedRange} {map : VisitedRangeMap}
    (hkept : ∀ (s : ℚ) old, start = ↑s → below start ∈ place → below stop ∉ place →
      map.HoldsAt place old → old.evaluateAtTime s ≤ (value s).evaluateAtTime s) :
    (putRange start stop value map).HoldsAt place w ↔ map.HoldsAt place w ∨
      (¬ map.Covers place ∧ below start ∈ place ∧ below stop ∉ place ∧
        ∃ s : ℚ, start = ↑s ∧ w = value s) := by
  induction start with
  | top =>
    refine ⟨.inl, ?_⟩
    rintro (h | ⟨-, -, -, s, hs, -⟩)
    · exact h
    · exact nomatch hs
  | coe start =>
    by_cases h : ↑start < stop
    · rw [show putRange ↑start stop value map = map.merge (.closedOpen (start : WithTop ℚ) stop h)
        (value start) _ from dif_pos h, holdsAt_merge]
      by_cases hin : below (start : WithTop ℚ) ∈ place ∧ below stop ∉ place
      · have hhas : (Range.closedOpen (start : WithTop ℚ) stop h).Has place := hin
        simp only [hhas, hin.1, hin.2, true_and, not_true_eq_false, false_and, or_false, not_false_eq_true]
        have hself : ∀ old, map.HoldsAt place old →
            old.mergeWith (value start) (.closedOpen (start : WithTop ℚ) stop h) = old :=
          fun old hold => if_neg (hkept start old rfl hin.1 hin.2 hold).not_gt
        refine or_congr ?_ (and_congr_right' ?_)
        · constructor
          · rintro ⟨old, hold, rfl⟩
            rwa [hself old hold]
          · exact fun hw => ⟨w, hw, (hself w hw).symm⟩
        · constructor
          · rintro rfl
            exact ⟨start, rfl, rfl⟩
          · rintro ⟨s, hs, rfl⟩
            rw [WithTop.coe_inj.mp hs]
      · have hhas : ¬ (Range.closedOpen (start : WithTop ℚ) stop h).Has place := hin
        simp only [hhas, false_and, false_or, not_false_eq_true, true_and]
        refine (or_iff_left ?_).symm
        exact fun hfree => hin ⟨hfree.2.1, hfree.2.2.1⟩
    · rw [show putRange ↑start stop value map = map from dif_neg h]
      refine (or_iff_left ?_).symm
      rintro ⟨-, hstart, hstop, -⟩
      exact h (below_lt_below.mp (lt_of_place hstart hstop))

variable {startTime endDeparture endStop endRangeExtraTravelTime : WithTop ℚ}
  {stops nodeCost : ℚ} {map : VisitedRangeMap}

/-- The stop time starts at the one of the departure. -/
theorem evaluateAtTime_stop_start (nodeCost stops s : ℚ) :
    (VisitedRange.VisitedWithAddedStopTime ⟨stops - s⟩ nodeCost).evaluateAtTime s =
      toLex (↑nodeCost, ↑stops) := by
  rw [VisitedRange.evaluateAtTime, LinearFunction.apply, ← coe_add, sub_add_cancel]

/-- The travel time starts at the one of the departure. -/
theorem evaluateAtTime_travel_start (nodeCost stops s : ℚ) :
    (VisitedRange.VisitedWithAddedTravelTime ⟨nodeCost - s⟩ stops).evaluateAtTime s =
      toLex (↑nodeCost, ↑stops) := by
  rw [VisitedRange.evaluateAtTime, LinearFunction.apply, ← coe_add, sub_add_cancel]

variable (hmap : markAsVisited startTime endDeparture endStop endRangeExtraTravelTime stops nodeCost =
  some map)

include hmap in
/-- The three ranges of `markAsVisited`, the end of the first one included. -/
theorem holdsAt_markAsVisited (hle : endDeparture ≤ endStop) :
    map.HoldsAt place w ↔ (below startTime ∈ place ∧ above endDeparture ∉ place ∧
        w = .VisitedWithDepartureTimeChange nodeCost stops) ∨
      (above endDeparture ∈ place ∧ below endStop ∉ place ∧ ∃ s : ℚ, endDeparture = ↑s ∧
          w = .VisitedWithAddedStopTime ⟨stops - s⟩ nodeCost) ∨
      (above endDeparture ∈ place ∧ below endStop ∈ place ∧
        below endRangeExtraTravelTime ∉ place ∧ ∃ s : ℚ, endStop = ↑s ∧
          w = .VisitedWithAddedTravelTime ⟨nodeCost - s⟩ stops) := by
  obtain ⟨hstart, hmap⟩ := Option.dite_none_right_eq_some.mp hmap
  cases hmap
  -- the range of the departure times
  have hfirst : ∀ v, (empty.put (.closed startTime endDeparture hstart)
      (VisitedRange.VisitedWithDepartureTimeChange nodeCost stops)).HoldsAt place v ↔
      below startTime ∈ place ∧ above endDeparture ∉ place ∧
        v = .VisitedWithDepartureTimeChange nodeCost stops := by
    intro v
    rw [holdsAt_put, or_iff_left, ← and_assoc]
    · rfl
    · exact fun h => holdsAt_empty h.2
  have hstart' : below endDeparture ∈ place → below startTime ∈ place :=
    fun h => place.lower (below_le_below.mpr hstart) h
  have hstop' : below endStop ∈ place → below endDeparture ∈ place :=
    fun h => place.lower (below_le_below.mpr hle) h
  have habove : above endDeparture ∈ place →
      below endDeparture ∈ place :=
    fun h => place.lower (below_le_above.mpr le_rfl) h
  -- the range of the stop times, which keeps the end of the first one
  have hsecond : ∀ v, (putRange endDeparture endStop
      (fun start => .VisitedWithAddedStopTime ⟨stops - start⟩ nodeCost)
      (empty.put (.closed startTime endDeparture hstart)
        (.VisitedWithDepartureTimeChange nodeCost stops))).HoldsAt place v ↔
      (below startTime ∈ place ∧ above endDeparture ∉ place ∧
        v = .VisitedWithDepartureTimeChange nodeCost stops) ∨
      (above endDeparture ∈ place ∧ below endStop ∉ place ∧ ∃ s : ℚ, endDeparture = ↑s ∧
          v = .VisitedWithAddedStopTime ⟨stops - s⟩ nodeCost) := by
    intro v
    rw [holdsAt_putRange, hfirst]
    · simp only [RangeMap.Covers, hfirst]
      refine or_congr_right ?_
      constructor
      · rintro ⟨hfree, hdeparture, hstop, hvalue⟩
        refine ⟨?_, hstop, hvalue⟩
        by_contra hnot
        exact hfree ⟨_, hstart' hdeparture, hnot, rfl⟩
      · rintro ⟨hdeparture, hstop, hvalue⟩
        refine ⟨?_, habove hdeparture, hstop, hvalue⟩
        rintro ⟨_, _, hnot, _⟩
        exact hnot hdeparture
    · rintro s old - - - hold
      obtain ⟨-, -, rfl⟩ := (hfirst old).mp hold
      exact (evaluateAtTime_stop_start nodeCost stops s).ge
  rw [holdsAt_putRange, hsecond, or_assoc]
  · simp only [RangeMap.Covers, hsecond]
    refine or_congr_right (or_congr_right ?_)
    constructor
    · rintro ⟨hfree, hstop, htravel, hvalue⟩
      refine ⟨?_, hstop, htravel, hvalue⟩
      by_contra hnot
      exact hfree ⟨_, .inl ⟨hstart' (hstop' hstop), hnot, rfl⟩⟩
    · rintro ⟨hdeparture, hstop, htravel, hvalue⟩
      refine ⟨?_, hstop, htravel, hvalue⟩
      rintro ⟨_, ⟨_, hnot, _⟩ | ⟨_, hnot, _⟩⟩
      · exact hnot hdeparture
      · exact hnot hstop
  · rintro s old - hstop - hold
    rcases (hsecond old).mp hold with ⟨-, -, rfl⟩ | ⟨-, hnot, -⟩
    · exact (evaluateAtTime_travel_start nodeCost stops s).ge
    · exact absurd hstop hnot

/-- The end of what is marked. -/
def markedEnd (endDeparture endStop endRangeExtraTravelTime : WithTop ℚ) : Cut (WithTop ℚ) :=
  max (above endDeparture)
    (max (below endStop) (below endRangeExtraTravelTime))

include hmap in
theorem start_le_of_markAsVisited : startTime ≤ endDeparture :=
  (Option.dite_none_right_eq_some.mp hmap).1

include hmap in
/-- `markAsVisited` leaves no gap between the start and the end. -/
theorem covers_markAsVisited (hle : endDeparture ≤ endStop) :
    map.Covers place ↔ below startTime ∈ place ∧ markedEnd endDeparture
      endStop endRangeExtraTravelTime ∉ place := by
  have hstart := start_le_of_markAsVisited hmap
  have hfinite : ∀ {a b : WithTop ℚ}, below a ∈ place → below b ∉ place → ∃ s : ℚ, ↑s = a := fun ha hb =>
    ne_top_iff_exists.mp (below_lt_below.mp (lt_of_place ha hb)).ne_top
  simp only [RangeMap.Covers, holdsAt_markAsVisited hmap hle, markedEnd, max_mem_place]
  constructor
  · rintro ⟨w, ⟨hs, hd, -⟩ | ⟨hd, ht, -⟩ | ⟨hd, hs, ht, -⟩⟩
    · exact ⟨hs, fun h => hd h.1⟩
    · exact ⟨place.lower (below_le_above.mpr hstart) hd, fun h => ht h.2.1⟩
    · exact ⟨place.lower (below_le_above.mpr hstart) hd, fun h => ht h.2.2⟩
  · rintro ⟨hs, hend⟩
    by_cases hd : above endDeparture ∈ place
    · by_cases ht : below endStop ∈ place
      · have htravel : below endRangeExtraTravelTime ∉ place := fun h => hend ⟨hd, ht, h⟩
        obtain ⟨s, hs⟩ := hfinite ht htravel
        exact ⟨_, .inr (.inr ⟨hd, ht, htravel, s, hs.symm, rfl⟩)⟩
      · obtain ⟨s, hs⟩ := hfinite (place.lower (below_le_above.mpr le_rfl) hd) ht
        exact ⟨_, .inr (.inl ⟨hd, ht, s, hs.symm, rfl⟩)⟩
    · exact ⟨_, .inl ⟨hs, hd, rfl⟩⟩

theorem leftClosed_of_covers {m : VisitedRangeMap} {start : WithTop ℚ} {upper : Cut (WithTop ℚ)}
    (h : ∀ place, m.Covers place ↔ below start ∈ place ∧ upper ∉ place) : m.LeftClosed := by
  intro t hcovers
  obtain ⟨hstart, hupper⟩ := (h _).mp hcovers
  rw [LowerSet.mem_Iic_iff] at hstart hupper
  refine (h _).mpr ⟨?_, ?_⟩
  · exact below_le_below.mpr (below_le_above.mp hstart)
  · exact fun hle => hupper (hle.trans (below_le_above.mpr le_rfl))

theorem LeftClosed.putAll {m n : VisitedRangeMap} (hm : m.LeftClosed) (hn : n.LeftClosed) :
    LeftClosed (m.putAll n) := by
  intro t hcovers
  rw [covers_putAll] at hcovers ⊢
  exact hcovers.imp (hn t) (hm t)

end Mark

end VisitedRangeMap

end Osrd.Stdcm
