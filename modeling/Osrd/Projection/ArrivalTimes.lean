import Osrd.Projection.OperationalPoints

/-! What the lookups of a curve answer (`editoast/src/views/projection.rs`): `linear_interpolate_curve`,
    which is to answer for every value, and `interpolate_arrival_time`, which is to answer with the arrival.

    Both look up the last point that is not before the value and interpolate from the point before it. A
    value below the first point has no such point: the search panics. At a position with several points the
    point before the last one is taken, which is the arrival when there are two of them. -/

namespace Osrd.Projection

open Timetable.Simulation (ReportTrain)
open Option List Nat

variable (build : Build)

/-- Values of 32 bits, whose products have 64. -/
def Short (values : List ℕ) : Prop := ∀ v ∈ values, v < 2 ^ 32

instance (values : List ℕ) : Decidable (Short values) := inferInstanceAs (Decidable (∀ v ∈ values, _))

theorem Short.at {values : List ℕ} (h : Short values) {i v : ℕ} (hv : values[i]? = some v) : v < 2 ^ 32 :=
  h v (mem_of_getElem? hv)

section Interpolate

variable {build : Build} {aX bX aY bY v t : ℕ}

theorem linearInterpolate_up (hx : aX < bX) (hy : aY ≤ bY) (ha : aX ≤ v) :
    linearInterpolate build aX bX aY bY v =
      (build.u64 ((v - aX) * (bY - aY))).map fun n => aY + n / (bX - aX) := by
  rw [linearInterpolate, if_neg hx.ne, Partial.checkedSub_of_le ha]
  rcases hy.lt_or_eq with hlt | rfl
  · rw [if_pos ⟨hlt, hx⟩]
    exact (map_eq_bind ..).symm
  · simp [hx, build.u64_of_lt, Partial.checkedSub]

theorem linearInterpolate_down (hx : aX < bX) (hy : bY ≤ aY) (ha : aX ≤ v) (hb : v ≤ bX) :
    linearInterpolate build aX bX aY bY v =
      (build.u64 ((v - aX) * (aY - bY))).map fun n => aY - n / (bX - aX) := by
  rw [linearInterpolate, if_neg hx.ne, if_neg fun h => h.1.not_ge hy, if_pos ⟨hy, hx⟩,
    Partial.checkedSub_of_le ha]
  cases hu : build.u64 ((v - aX) * (aY - bY)) with
  | none => simp [hu]
  | some n =>
    have hshare := share_le (show v - aX ≤ bX - aX by omega) (Build.le_of_u64 hu)
    simp [hu, Partial.checkedSub_of_le (hshare.trans (sub_le _ _))]

theorem linearInterpolate_between (ha : aX ≤ v) (hb : v ≤ bX)
    (h : linearInterpolate build aX bX aY bY v = some t) : min aY bY ≤ t ∧ t ≤ max aY bY := by
  rcases (ha.trans hb).lt_or_eq with hx | rfl
  · have hpart : v - aX ≤ bX - aX := by omega
    rcases le_total aY bY with hy | hy
    · rw [linearInterpolate_up hx hy ha] at h
      obtain ⟨n, hn, rfl⟩ := map_eq_some_iff.mp h
      have hshare := share_le hpart (Build.le_of_u64 hn)
      rw [min_eq_left hy, max_eq_right hy]
      exact ⟨le_add_right _ _, by omega⟩
    · rw [linearInterpolate_down hx hy ha hb] at h
      obtain ⟨n, hn, rfl⟩ := map_eq_some_iff.mp h
      have hshare := share_le hpart (Build.le_of_u64 hn)
      rw [min_eq_right hy, max_eq_left hy]
      exact ⟨by omega, sub_le _ _⟩
  · rw [linearInterpolate, if_pos rfl] at h
    cases h
    exact ⟨min_le_left _ _, le_max_left _ _⟩

end Interpolate

/-! ### The lookup -/

/-- The search passes a point of the value only to go to another one of the value. -/
theorem findIndexUpper_cases {values : List ℕ} {value i : ℕ} (h : findIndexUpper values value = some i) :
    values[i]? = some value ∨ ∀ j, i = j + 1 → values[j]? ≠ some value := by
  simp only [findIndexUpper, bind_eq_bind, bind_eq_some_iff, ite_none_left_eq_some] at h
  obtain ⟨last, -, -, right, -, before, hbefore, found, hfound, h⟩ := h
  split at h
  · next heq => exact .inl (some.inj h ▸ heq ▸ hfound)
  · next hne =>
    refine .inr fun j hj hvalue => hne ?_
    obtain rfl : right = j + 1 := (some.inj h).trans hj
    cases hbefore
    exact some.inj (hfound.symm.trans hvalue)

section Lookup

variable (build : Build) {x y : List ℕ} {value first last : ℕ} (hsorted : x.Pairwise (· ≤ ·))
  (hfirst : x[0]? = some first) (hlast : x.getLast? = some last)

include hsorted hfirst hlast

end Lookup

/-! ### Curves -/

open SpaceTimeCurve (linearInterpolateCurve)

end Osrd.Projection
