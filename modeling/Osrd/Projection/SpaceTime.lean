import Osrd.Projection.Intersections
import Osrd.Projection.Locations

/-! Model of the space time curves of a train on a path (`editoast/src/views/projection.rs`), and what their
    parts answer: the searches in a list of positions that never goes back, the interpolation between two
    points, and the projection of a position.

    As in the rest of the model a call that panics answers `none`: an index out of bounds, an `assert` or
    an `expect` that fails, a subtraction below zero. What a product of 64 bits that overflows does is up to
    the build (`Build`). -/

namespace Osrd.Projection

open Partial (checkedSub checkedSub_of_le)
open Option Nat

structure SpaceTimeCurve where
  positions : List ℕ
  times : List ℕ

structure TrainSimulationDetails where
  positions : List ℕ
  times : List ℕ
  trainPath : List TrackRange

/-! ### The code -/

def findIndexUpper (values : List ℕ) (value : ℕ) : Option ℕ := do
  let last ← values.getLast?
  if last < value then none
  else
    let right ← PartitionPoint.firstAbove (fun mid => values[mid]?.map fun v => decide (value < v))
      values.length 0 values.length
    let before ← checkedSub right 1
    let found ← values[before]?
    if found = value then return before else return right

/-- The loop of `find_index_lower`. -/
def lowerFrom (values : List ℕ) (value : ℕ) : ℕ → Option ℕ
  | 0 => some 0
  | index + 1 => do
      let found ← values[index + 1]?
      let before ← values[index]?
      if value < found ∨ (found = value ∧ before = found) then lowerFrom values value index
      else return index + 1

def findIndexLower (values : List ℕ) (value : ℕ) : Option ℕ := do
  let index ← findIndexUpper values value
  lowerFrom values value index

/-- A position on neither location of the path panics. -/
def projectPos (trainPos : ℕ) (trainPath pathProjection : PathProjection) : Option ℕ := do
  match ← trainPath.getLocation trainPos with
  | .One loc => pathProjection.getPosition loc
  | .Two locA locB => (pathProjection.getPosition locA).or (pathProjection.getPosition locB)

/-- The profiles of Cargo: `dev` checks for overflows, `release` does not. -/
inductive Build
  | dev
  | release

/-- An unsigned result of 64 bits: an overflow panics or wraps. -/
def Build.u64 : Build → ℕ → Option ℕ
  | .dev, n => if n < 2 ^ 64 then some n else none
  | .release, n => some (n % 2 ^ 64)

section Code

variable (build : Build)

def linearInterpolate (aX bX aY bY x : ℕ) : Option ℕ :=
  if aX = bX then some aY
  else if aY < bY ∧ aX < bX then do
    let distance ← checkedSub x aX
    return aY + (← build.u64 (distance * (bY - aY))) / (bX - aX)
  else if bY ≤ aY ∧ aX < bX then do
    let distance ← checkedSub x aX
    checkedSub aY ((← build.u64 (distance * (aY - bY))) / (bX - aX))
  else if aY < bY ∧ bX ≤ aX then do
    let distance ← checkedSub aX x
    return aY + (← build.u64 (distance * (bY - aY))) / (aX - bX)
  else do
    let distance ← checkedSub aX x
    checkedSub aY ((← build.u64 (distance * (aY - bY))) / (aX - bX))

variable (positions times : List ℕ)

/-- The time at a position between the points at two indices. -/
def interpolateBetween (a b x : ℕ) : Option ℕ := do
  let aX ← positions[a]?
  let bX ← positions[b]?
  let aY ← times[a]?
  let bY ← times[b]?
  linearInterpolate build aX bX aY bY x

/-- The point at an index, projected. -/
def projectPoint (trainPath pathProjection : PathProjection) (index : ℕ) : Option (ℕ × ℕ) := do
  let trainPos ← positions[index]?
  let position ← projectPos trainPos trainPath pathProjection
  let time ← times[index]?
  return (position, time)

/-- A turn of the loop over the intersections. -/
def curveOf (trainPath pathProjection : PathProjection)
    (intersection : Intersection) : Option SpaceTimeCurve := do
  let startIndex ← findIndexLower positions intersection.startAt
  let endIndex ← findIndexUpper positions intersection.endAt
  -- the capacity of the segment
  let _ ← checkedSub endIndex startIndex
  let firstPosition ← projectPos intersection.startAt trainPath pathProjection
  let firstTime ←
    interpolateBetween build positions times startIndex (startIndex + 1) intersection.startAt
  let inner ← (List.range' (startIndex + 1) (endIndex - (startIndex + 1))).mapM
    (projectPoint positions times trainPath pathProjection)
  let lastPosition ← projectPos intersection.endAt trainPath pathProjection
  let beforeEnd ← checkedSub endIndex 1
  let lastTime ← interpolateBetween build positions times endIndex beforeEnd intersection.endAt
  return ⟨firstPosition :: inner.map Prod.fst ++ [lastPosition],
    firstTime :: inner.map Prod.snd ++ [lastTime]⟩

def computeSpaceTimeCurves (projectPathInput : TrainSimulationDetails)
    (pathProjection : PathProjection) : Option (List SpaceTimeCurve) := do
  let trainPath ← PathProjection.new projectPathInput.trainPath
  let intersections ← pathProjection.getIntersections projectPathInput.trainPath
  let first ← projectPathInput.positions.head?
  let last ← projectPathInput.positions.getLast?
  if first = 0 ∧ last = trainPath.length ∧
      projectPathInput.positions.length = projectPathInput.times.length then
    intersections.mapM
      (curveOf build projectPathInput.positions projectPathInput.times trainPath pathProjection)
  else none

end Code

/-! ### Searches in positions that never go back -/

section Search

variable {values : List ℕ} {value : ℕ}

theorem le_of_pairwise (hsorted : values.Pairwise (· ≤ ·)) {i j a b : ℕ} (hij : i ≤ j)
    (ha : values[i]? = some a) (hb : values[j]? = some b) : a ≤ b := by
  obtain ⟨hi, rfl⟩ := getElem?_eq_some_iff.mp ha
  obtain ⟨hj, rfl⟩ := getElem?_eq_some_iff.mp hb
  rcases lt_or_eq_of_le hij with hlt | rfl
  · exact List.pairwise_iff_getElem.mp hsorted i j hi hj hlt
  · exact le_rfl

/-- Where the values get above a value. -/
theorem exists_cut (value : ℕ) : ∀ {values : List ℕ}, values.Pairwise (· ≤ ·) → ∃ m ≤ values.length,
    ∀ j b, values[j]? = some b → (j < m ↔ b ≤ value)
  | [], _ => ⟨0, le_rfl, fun _ _ hb => (nomatch hb)⟩
  | a :: values, hsorted => by
    obtain ⟨hfirst, hrest⟩ := List.pairwise_cons.mp hsorted
    by_cases ha : a ≤ value
    · obtain ⟨m, hm, hcut⟩ := exists_cut value hrest
      refine ⟨m + 1, succ_le_succ hm, fun j b hb => ?_⟩
      cases j with
      | zero => exact ⟨fun _ => some.inj hb ▸ ha, fun _ => succ_pos m⟩
      | succ j => exact succ_lt_succ_iff.trans (hcut j b hb)
    · -- the first value is above already
      refine ⟨0, zero_le _, fun j b hb => ⟨fun hj => absurd hj (not_lt_zero j), fun hle => ?_⟩⟩
      have hab : a ≤ b := le_of_pairwise hsorted (zero_le j) rfl hb
      exact absurd (hab.trans hle) ha

/-- The answer of `find_index_upper`: the last index of the value, or the first above it. -/
structure IsUpper (values : List ℕ) (value i a : ℕ) : Prop where
  at_index : values[i]? = some a
  le_at : value ≤ a
  before : ∀ j b, j < i → values[j]? = some b → b ≤ value
  after : ∀ j b, i < j → values[j]? = some b → value < b

theorem findIndexUpper_spec (hsorted : values.Pairwise (· ≤ ·)) {first last : ℕ}
    (hfirst : values[0]? = some first) (hlast : values.getLast? = some last) (hge : first ≤ value)
    (hle : value ≤ last) : ∃ i a, findIndexUpper values value = some i ∧ IsUpper values value i a := by
  obtain ⟨m, hm, hcut⟩ := exists_cut value hsorted
  have hsearch : PartitionPoint.firstAbove
      (fun mid => values[mid]?.map fun v => decide (value < v)) values.length 0 values.length =
        some m := by
    refine PartitionPoint.firstAbove_eq le_rfl (zero_le m) hm (fun i _ hi => ?_) fun i hi hlt => ?_
    · have hv := List.getElem?_eq_getElem (hi.trans_le hm)
      rw [hv, map_some, decide_eq_false ((hcut i _ hv).mp hi).not_gt]
    · have hv := List.getElem?_eq_getElem hlt
      rw [hv, map_some, decide_eq_true (not_le.mp fun h => not_lt.mpr hi ((hcut i _ hv).mpr h))]
  have hpos : 0 < m := (hcut 0 first hfirst).mpr hge
  obtain ⟨m, rfl⟩ := exists_eq_succ_of_ne_zero hpos.ne'
  have hc := List.getElem?_eq_getElem (lt_of_succ_le hm)
  simp only [findIndexUpper, hlast, bind_eq_bind, bind_some, if_neg hle.not_gt,
    hsearch, checkedSub_of_le hpos, succ_sub_one, hc, pure_def]
  split
  · next heq =>
    refine ⟨m, _, rfl, hc, heq.ge, fun j b hj hb => ?_, fun j b hj hb => ?_⟩
    · exact (hcut j b hb).mp (by omega)
    · exact not_le.mp fun h => absurd ((hcut j b hb).mpr h) (by omega)
  · next hne =>
    have hlt : m + 1 < values.length := by
      -- otherwise the last value is the one before the cut
      by_contra hge'
      have hlen : values.length - 1 = m := by omega
      rw [List.getLast?_eq_getElem?, hlen] at hlast
      have hbelow := (hcut m last hlast).mp (lt_succ_self m)
      exact hne (some.inj (hc.symm.trans hlast) |>.trans (le_antisymm hbelow hle))
    have hv := List.getElem?_eq_getElem hlt
    refine ⟨m + 1, _, rfl, hv, ?_, fun j b hj hb => (hcut j b hb).mp hj, fun j b hj hb => ?_⟩
    · exact (not_le.mp fun h => absurd ((hcut _ _ hv).mpr h) (lt_irrefl _)).le
    · exact not_le.mp fun h => absurd ((hcut j b hb).mpr h) (by omega)

theorem lowerFrom_spec {first : ℕ} (hfirst : values[0]? = some first) (hge : first ≤ value) :
    ∀ {u : ℕ}, u < values.length → ∃ i a, lowerFrom values value u = some i ∧ i ≤ u ∧
      values[i]? = some a ∧ a ≤ value ∧ ∀ j b, i < j → j ≤ u → values[j]? = some b → value ≤ b
  | 0, _ => ⟨0, first, rfl, le_rfl, hfirst, hge, fun j _ hj hle => absurd hj (by omega)⟩
  | u + 1, hu => by
    have hfound := List.getElem?_eq_getElem hu
    have hbefore := List.getElem?_eq_getElem (lt_of_succ_lt hu)
    simp only [lowerFrom, hfound, hbefore, bind_eq_bind, bind_some]
    split
    · next habove =>
      obtain ⟨i, a, hi, hiu, ha, hle, hafter⟩ := lowerFrom_spec hfirst hge (lt_of_succ_lt hu)
      refine ⟨i, a, hi, hiu.trans (le_succ u), ha, hle, fun j b hij hj hb => ?_⟩
      rcases lt_or_eq_of_le hj with hlt | rfl
      · exact hafter j b hij (le_of_lt_succ hlt) hb
      · rw [← some.inj (hfound.symm.trans hb)]
        rcases habove with hlt | ⟨heq, -⟩
        · exact hlt.le
        · exact heq.ge
    · next hbelow =>
      refine ⟨u + 1, _, rfl, le_rfl, hfound, not_lt.mp fun h => hbelow (.inl h), ?_⟩
      exact fun j _ hij hj => absurd hij (by omega)

/-- The answer of `find_index_lower`. -/
structure IsLower (values : List ℕ) (value i a : ℕ) : Prop where
  at_index : values[i]? = some a
  at_le : a ≤ value
  after : ∀ j b, i < j → values[j]? = some b → value ≤ b

theorem findIndexLower_spec (hsorted : values.Pairwise (· ≤ ·)) {first last : ℕ}
    (hfirst : values[0]? = some first) (hlast : values.getLast? = some last) (hge : first ≤ value)
    (hle : value ≤ last) : ∃ i a, findIndexLower values value = some i ∧ IsLower values value i a := by
  obtain ⟨u, c, hu, hupper⟩ := findIndexUpper_spec hsorted hfirst hlast hge hle
  have hlt := (getElem?_eq_some_iff.mp hupper.at_index).1
  obtain ⟨i, a, hi, -, ha, hale, hafter⟩ := lowerFrom_spec hfirst hge hlt
  refine ⟨i, a, by rw [findIndexLower, hu]; exact hi, ha, hale, fun j b hij hb => ?_⟩
  rcases lt_or_ge u j with hj | hj
  · exact (hupper.after j b hj hb).le
  · exact hafter j b hij hj hb

end Search

/-! ### Interpolation -/

theorem Build.u64_of_lt (build : Build) {n : ℕ} (h : n < 2 ^ 64) : build.u64 n = some n := by
  cases build with
  | dev => exact if_pos h
  | release => exact congrArg some (mod_eq_of_lt h)

theorem Build.le_of_u64 {build : Build} {n m : ℕ} (h : build.u64 n = some m) : m ≤ n := by
  cases build with
  | dev => exact (some.inj (ite_none_right_eq_some.mp h).2).ge
  | release => exact some.inj h ▸ mod_le _ _

/-- A part of a whole gets at most the amount, also when the product wraps. -/
theorem share_le {part whole amount m : ℕ} (h : part ≤ whole) (hm : m ≤ part * amount) :
    m / whole ≤ amount :=
  Nat.div_le_of_le_mul (hm.trans (Nat.mul_le_mul_right amount h))

/-- The interpolation answers at every point between the two, when no overflow is checked. -/
theorem linearInterpolate_isSome {aX bX x : ℕ} (aY bY : ℕ) (h : (aX ≤ x ∧ x ≤ bX) ∨ (bX ≤ x ∧ x ≤ aX)) :
    (linearInterpolate .release aX bX aY bY x).isSome := by
  simp only [linearInterpolate, Build.u64, bind_eq_bind, bind_some]
  split
  · rfl
  split
  · rw [checkedSub_of_le (by omega)]
    rfl
  split
  · have hshare := share_le (show x - aX ≤ bX - aX by omega)
      (mod_le ((x - aX) * (aY - bY)) (2 ^ 64))
    rw [checkedSub_of_le (by omega), bind_some, checkedSub_of_le (hshare.trans (sub_le _ _))]
    rfl
  split
  · rw [checkedSub_of_le (by omega)]
    rfl
  · have hshare := share_le (show aX - x ≤ aX - bX by omega)
      (mod_le ((aX - x) * (aY - bY)) (2 ^ 64))
    rw [checkedSub_of_le (by omega), bind_some, checkedSub_of_le (hshare.trans (sub_le _ _))]
    rfl

/-! ### Projection of a position -/

/-- A position of the train that is a location of both paths. -/
def OnBoth (trainPath pathProjection : PathProjection) (p : ℕ) : Prop :=
  ∃ l, trainPath.getPosition l = some p ∧ (pathProjection.getPosition l).isSome

theorem projectPos_isSome_iff {train : PathProjection} {path : List TrackRange}
    (h : train.Indexes path) (hpath : train.path = path) (hvalid : ValidPath path) (hne : path ≠ [])
    {p : ℕ} (hp : p ≤ startOf path path.length) (projection : PathProjection) :
    (projectPos p train projection).isSome ↔ OnBoth train projection p := by
  obtain ⟨found, hfound, hlocations⟩ := h.getLocation_spec hpath hvalid hne hp
  simp only [OnBoth, ← hlocations]
  cases found with
  | One l =>
    simp only [projectPos, hfound, bind_eq_bind, bind_some,
      TrackLocationFromPath.locations, List.mem_singleton, exists_eq_left]
  | Two l₁ l₂ =>
    simp only [projectPos, hfound, bind_eq_bind, bind_some, isSome_or,
      Bool.or_eq_true, TrackLocationFromPath.locations, List.mem_cons, List.not_mem_nil, or_false,
      exists_eq_or_imp, exists_eq_left]

end Osrd.Projection
