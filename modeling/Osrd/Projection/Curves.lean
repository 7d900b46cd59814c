import Osrd.Projection.SpaceTime

/-! When `compute_space_time_curves` answers for every simulation of a train.

    All that can go wrong is the projection of a position: the positions that a curve projects are those
    of the simulation between the two ends of an intersection, and the ends. Some simulation has any given
    position between the ends, so every position of every stretch has to be on both paths. -/

namespace Osrd.Projection

open Partial (checkedSub_of_le)
open Option PathProjection Nat

/-- Positions from the start of a path to its end that never go back, and a time for each. -/
structure ValidSimulation (positions times : List ℕ) (length : ℕ) : Prop where
  ordered : positions.Pairwise (· ≤ ·)
  first : positions.head? = some 0
  last : positions.getLast? = some length
  times_length : positions.length = times.length

variable {positions times : List ℕ} {length : ℕ}

namespace ValidSimulation

variable (h : ValidSimulation positions times length)

include h in
theorem first_at : positions[0]? = some 0 := by
  rw [← List.head?_eq_getElem?, h.first]

include h in
theorem upper {value : ℕ} (hle : value ≤ length) :
    ∃ i a, findIndexUpper positions value = some i ∧ IsUpper positions value i a :=
  findIndexUpper_spec h.ordered h.first_at h.last (zero_le _) hle

include h in
theorem lower {value : ℕ} (hle : value ≤ length) :
    ∃ i a, findIndexLower positions value = some i ∧ IsLower positions value i a :=
  findIndexLower_spec h.ordered h.first_at h.last (zero_le _) hle

include h in
theorem time_at {i a : ℕ} (ha : positions[i]? = some a) : ∃ t, times[i]? = some t := by
  have hi := (getElem?_eq_some_iff.mp ha).1
  rw [h.times_length] at hi
  exact ⟨_, List.getElem?_eq_getElem hi⟩

include h in
/-- The time between two points that the position is between. -/
theorem interpolateBetween_isSome {i j a b x : ℕ} (ha : positions[i]? = some a) (hb : positions[j]? = some b)
    (hbetween : (a ≤ x ∧ x ≤ b) ∨ (b ≤ x ∧ x ≤ a)) :
    ∃ t, interpolateBetween .release positions times i j x = some t := by
  obtain ⟨tᵢ, htᵢ⟩ := h.time_at ha
  obtain ⟨tⱼ, htⱼ⟩ := h.time_at hb
  simp only [interpolateBetween, ha, hb, htᵢ, htⱼ]
  exact isSome_iff_exists.mp (linearInterpolate_isSome tᵢ tⱼ hbetween)

include h in
/-- The point after the start of an intersection, and the one before its end. -/
theorem lower_lt_upper {start stop i a u c : ℕ}
    (hlt : start < stop) (hlower : IsLower positions start i a) (hupper : IsUpper positions stop u c) :
    i < u := by
  by_contra hge
  have hca := le_of_pairwise h.ordered (not_lt.mp hge) hupper.at_index hlower.at_index
  have hac := hca.trans hlower.at_le
  have := hupper.le_at
  omega

end ValidSimulation

section Curve

variable {train projection : PathProjection} {x : Intersection}

theorem projectPoint_isSome (h : ValidSimulation positions times length) {i a : ℕ}
    (ha : positions[i]? = some a) (hproject : (projectPos a train projection).isSome) :
    ∃ point, projectPoint positions times train projection i = some point := by
  obtain ⟨t, ht⟩ := h.time_at ha
  obtain ⟨p, hp⟩ := isSome_iff_exists.mp hproject
  exact ⟨(p, t), by simp only [projectPoint, ha, hp, ht, bind_eq_bind, bind_some, pure_def]⟩

/-- The curve of an intersection whose positions can all be projected. -/
theorem curveOf_isSome (h : ValidSimulation positions times length) (hlt : x.startAt < x.endAt)
    (hle : x.endAt ≤ length)
    (hproject : ∀ p, x.startAt ≤ p → p ≤ x.endAt → (projectPos p train projection).isSome) :
    ∃ curve, curveOf .release positions times train projection x = some curve := by
  obtain ⟨i, a, hi, hlower⟩ := h.lower (hlt.le.trans hle)
  obtain ⟨u, c, hu, hupper⟩ := h.upper hle
  have hiu := h.lower_lt_upper hlt hlower hupper
  have hlength := (getElem?_eq_some_iff.mp hupper.at_index).1
  have hafter := List.getElem?_eq_getElem (show i + 1 < positions.length by omega)
  have hbefore := List.getElem?_eq_getElem (show u - 1 < positions.length by omega)
  obtain ⟨p₁, hp₁⟩ := isSome_iff_exists.mp (hproject _ le_rfl hlt.le)
  obtain ⟨p₂, hp₂⟩ := isSome_iff_exists.mp (hproject _ hlt.le le_rfl)
  obtain ⟨t₁, ht₁⟩ := h.interpolateBetween_isSome hlower.at_index hafter
    (.inl ⟨hlower.at_le, hlower.after _ _ (lt_succ_self i) hafter⟩)
  obtain ⟨t₂, ht₂⟩ := h.interpolateBetween_isSome hupper.at_index hbefore
    (.inr ⟨hupper.before _ _ (by omega) hbefore, hupper.le_at⟩)
  obtain ⟨inner, hinner⟩ : ∃ inner, (List.range' (i + 1) (u - (i + 1))).mapM
      (projectPoint positions times train projection) = some inner := by
    refine Partial.mapM_exists fun j hj => ?_
    obtain ⟨hij, hju⟩ := List.mem_range'_1.mp hj
    have hj' := List.getElem?_eq_getElem (show j < positions.length by omega)
    refine projectPoint_isSome h hj' (hproject _ ?_ ?_)
    · exact hlower.after j _ (by omega) hj'
    · exact hupper.before j _ (by omega) hj'
  simp only [curveOf, hi, hu, checkedSub_of_le hiu.le, hp₁, ht₁, hinner, hp₂,
    checkedSub_of_le (show 1 ≤ u by omega), ht₂, bind_eq_bind, bind_some,
    pure_def]
  exact ⟨_, rfl⟩

/-- A curve has projected the ends of the intersection and the points between its indices. -/
theorem projected_of_curveOf {curve : SpaceTimeCurve}
    (hcurve : curveOf .release positions times train projection x = some curve) :
    (projectPos x.startAt train projection).isSome ∧ (projectPos x.endAt train projection).isSome ∧
      ∃ i u, findIndexLower positions x.startAt = some i ∧ findIndexUpper positions x.endAt = some u ∧
        ∀ j a, i < j → j < u → positions[j]? = some a → (projectPos a train projection).isSome := by
  simp only [curveOf, bind_eq_bind, bind_eq_some_iff] at hcurve
  obtain ⟨i, hi, u, hu, -, -, p₁, hp₁, -, -, inner, hinner, p₂, hp₂, -⟩ := hcurve
  refine ⟨isSome_of_eq_some hp₁, isSome_of_eq_some hp₂, i, u, hi, hu, ?_⟩
  intro j a hij hju ha
  have hmem : j ∈ List.range' (i + 1) (u - (i + 1)) := List.mem_range'_1.mpr (by omega)
  obtain ⟨point, hpoint⟩ := Partial.exists_of_mapM hinner hmem
  simp only [projectPoint, ha, bind_eq_bind, bind_some, bind_eq_some_iff] at hpoint
  obtain ⟨p, hp, -⟩ := hpoint
  exact isSome_of_eq_some hp

/-- A simulation with a point at a given position. -/
theorem validSimulation_through {p : ℕ} (hp : p ≤ length) :
    ValidSimulation [0, p, length] [0, 0, 0] length :=
  ⟨by simp [hp], rfl, rfl, rfl⟩

/-- When there is a curve for the simulation with a point at a position of the intersection, the position
    can be projected. -/
theorem projected_of_through {p : ℕ} (hle : x.endAt ≤ length) (hstart : x.startAt ≤ p)
    (hstop : p ≤ x.endAt) {curve : SpaceTimeCurve}
    (hcurve : curveOf .release [0, p, length] [0, 0, 0] train projection x = some curve) :
    (projectPos p train projection).isSome := by
  obtain ⟨hfirst, hlast, i, u, hi, hu, hinner⟩ := projected_of_curveOf hcurve
  rcases eq_or_lt_of_le hstart with rfl | hlt
  · exact hfirst
  rcases eq_or_lt_of_le hstop with rfl | hlt'
  · exact hlast
  have h := validSimulation_through (hstop.trans hle)
  obtain ⟨i', a, hi', hlower⟩ := h.lower (show x.startAt ≤ length by omega)
  obtain ⟨u', c, hu', hupper⟩ := h.upper hle
  cases hi.symm.trans hi'
  cases hu.symm.trans hu'
  have hmiddle : [0, p, length][1]? = some p := rfl
  have hi₁ : i < 1 := by
    by_contra hge
    have := le_of_pairwise h.ordered (not_lt.mp hge) hmiddle hlower.at_index
    have := hlower.at_le
    omega
  have hu₁ : 1 < u := by
    by_contra hge
    have := le_of_pairwise h.ordered (not_lt.mp hge) hupper.at_index hmiddle
    have := hupper.le_at
    omega
  exact hinner 1 p hi₁ hu₁ hmiddle

end Curve

theorem computeSpaceTimeCurves_eq {trainPath : List TrackRange} {train projection : PathProjection}
    {intersections : List Intersection} (hnew : new trainPath = some train)
    (hintersections : projection.getIntersections trainPath = some intersections)
    (h : ValidSimulation positions times train.length) :
    computeSpaceTimeCurves .release ⟨positions, times, trainPath⟩ projection =
      intersections.mapM (curveOf .release positions times train projection) := by
  simp only [computeSpaceTimeCurves, hnew, hintersections, h.first, h.last, h.times_length,
    bind_eq_bind, bind_some, and_self, if_true]

/-- For paths of distinct tracks, `compute_space_time_curves` answers for every simulation of the train
    exactly when every position of every stretch is on both paths. -/
theorem computeSpaceTimeCurves_isSome_iff {trainPath projectionPath : List TrackRange}
    (htrain : ValidPath trainPath) (hprojection : ValidPath projectionPath) :
    ∃ train projection, new trainPath = some train ∧
      new projectionPath = some projection ∧
      ((∀ positions times, ValidSimulation positions times train.length →
          (computeSpaceTimeCurves .release ⟨positions, times, trainPath⟩ projection).isSome) ↔
        ∀ k start stop, PathProjection.Stretch projectionPath trainPath k start stop →
          ∀ p, start ≤ p → p ≤ stop → OnBoth train projection p) := by
  obtain ⟨train, hnew, htrainPath, htrainIndexes⟩ := new_spec htrain
  obtain ⟨projection, hnew', hpath, hindexes⟩ := new_spec hprojection
  refine ⟨train, projection, hnew, hnew', ?_⟩
  obtain ⟨intersections, hintersections, horder, hreported, hcomplete⟩ :=
    hindexes.getIntersections_spec hpath fun r hr => (htrain.ordered r hr).le
  rw [← htrainIndexes.length] at horder
  -- a position of an intersection can be projected when it is on both paths
  have honBoth : ∀ x ∈ intersections, ∀ p, p ≤ x.endAt →
      ((projectPos p train projection).isSome ↔ OnBoth train projection p) := by
    intro x hx p hp
    obtain ⟨k, hstretch⟩ := hreported x hx
    obtain ⟨r, -, -, hr, -⟩ := hstretch.shares
    have hne := List.ne_nil_of_mem (List.mem_of_getElem? hr)
    refine projectPos_isSome_iff htrainIndexes htrainPath htrain hne ?_ projection
    rw [← htrainIndexes.length]
    exact hp.trans (horder.within x hx)
  constructor
  · intro hall k start stop hstretch p hstart hstop
    obtain ⟨x, hx, rfl, hle⟩ := hcomplete k start stop hstretch
    have hpx := hstop.trans hle
    have hsimulation := validSimulation_through (hpx.trans (horder.within x hx))
    obtain ⟨curves, hcurves⟩ := isSome_iff_exists.mp (hall _ _ hsimulation)
    rw [computeSpaceTimeCurves_eq hnew hintersections hsimulation] at hcurves
    obtain ⟨curve, hcurve⟩ := Partial.exists_of_mapM hcurves hx
    exact (honBoth x hx p hpx).mp (projected_of_through (horder.within x hx) hstart hpx hcurve)
  · intro hall positions times hsimulation
    rw [computeSpaceTimeCurves_eq hnew hintersections hsimulation, isSome_iff_exists]
    refine Partial.mapM_exists fun x hx => ?_
    refine curveOf_isSome hsimulation (horder.nonempty x hx) (horder.within x hx) ?_
    intro p hstart hstop
    obtain ⟨k, hstretch⟩ := hreported x hx
    exact (honBoth x hx p hstop).mpr (hall k _ _ hstretch p hstart hstop)

/-- A train along the first half of a track, projected on the rest of it from 5 on. -/
theorem computeSpaceTimeCurves_isSome_one_track :
    ∃ projection, new [⟨"A", 5, 20, .StartToStop⟩] = some projection ∧
      ∀ positions times, ValidSimulation positions times 10 →
        (computeSpaceTimeCurves .release ⟨positions, times, [⟨"A", 0, 10, .StartToStop⟩]⟩
          projection).isSome := by
  obtain ⟨train, projection, hnew, hnew', hiff⟩ := computeSpaceTimeCurves_isSome_iff
    (⟨by decide, by decide⟩ : ValidPath [⟨"A", 0, 10, .StartToStop⟩])
    (⟨by decide, by decide⟩ : ValidPath [⟨"A", 5, 20, .StartToStop⟩])
  cases hnew
  cases hnew'
  refine ⟨_, rfl, hiff.mpr ?_⟩
  rintro k start stop (⟨hr, ⟨hproj, -, -⟩, -⟩ | ⟨-, -, hr, -⟩) p hstart hstop
  · obtain ⟨hk, rfl⟩ := getElem?_eq_some_iff.mp hr
    obtain ⟨hi, rfl⟩ := getElem?_eq_some_iff.mp hproj
    obtain rfl := lt_one_iff.mp hk
    obtain rfl := lt_one_iff.mp hi
    have hfive : 5 ≤ p := hstart
    have hten : p ≤ 10 := hstop
    refine ⟨⟨"A", p⟩, ?_, ?_⟩
    · show (if p < 0 ∨ 10 < p then none else some (0 + p - 0)) = some p
      rw [if_neg (by omega), Nat.zero_add, Nat.sub_zero]
    · show (if p < 5 ∨ 20 < p then none else some (0 + p - 5)).isSome
      rw [if_neg (by omega)]
      rfl
  · exact nomatch hr

/-- Two tracks that lead into each other at both ends. The path goes from `A` to the start of `B`, the train
    from `B` to the start of `A`: its shared parts, 20 and 30 long, are not next to each other. -/
theorem computeSpaceTimeCurves_ring_panics :
    ValidPath [⟨"B", 10, 100, .StartToStop⟩, ⟨"A", 0, 80, .StartToStop⟩] ∧
      ValidPath [⟨"A", 50, 100, .StartToStop⟩, ⟨"B", 0, 30, .StartToStop⟩] ∧
      ValidSimulation [0, 170] [0, 0] 170 ∧ ∃ projection, new
          [⟨"A", 50, 100, .StartToStop⟩, ⟨"B", 0, 30, .StartToStop⟩] = some projection ∧
        projection.getIntersections
          [⟨"B", 10, 100, .StartToStop⟩, ⟨"A", 0, 80, .StartToStop⟩] = some [⟨0, 50⟩] ∧
        computeSpaceTimeCurves .release ⟨[0, 170], [0, 0],
          [⟨"B", 10, 100, .StartToStop⟩, ⟨"A", 0, 80, .StartToStop⟩]⟩ projection = none := by
  refine ⟨⟨by decide, by decide⟩, ⟨by decide, by decide⟩, ⟨by simp, rfl, rfl, rfl⟩, _, rfl, ?_, ?_⟩
  · rfl
  · rfl

end Osrd.Projection
