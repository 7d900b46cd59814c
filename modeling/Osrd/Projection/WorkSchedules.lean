import Mathlib
import Osrd.Projection.Intersections

/-! Model of the projection of work schedules on a path (`editoast/src/views/work_schedules.rs`): the form
    that the creation endpoint accepts, the work schedule that is stored, and `project_path`.

    The roles of the two lists of ranges are swapped: the work schedule is what `PathProjection::new` is
    called with. It is made for paths, and panics when a track occurs twice; nothing that is accepted says it
    does not. -/

namespace Osrd.Projection

open PathProjection Option

/-- A range of a track, in metres (`schemas::infra::TrackRange`). -/
structure MetreRange where
  track : String
  beginAt : ℚ
  endAt : ℚ

inductive WorkScheduleType
  | Catenary
  | Track
deriving DecidableEq

/-- Dates are in milliseconds. -/
structure WorkScheduleItemForm where
  startDateTime : ℤ
  endDateTime : ℤ
  trackRanges : List MetreRange
  objId : String
  workScheduleType : WorkScheduleType

structure WorkSchedule where
  startDateTime : ℤ
  endDateTime : ℤ
  trackRanges : List MetreRange
  objId : String
  workScheduleType : WorkScheduleType
  workScheduleGroupId : ℤ

structure WorkScheduleProjection where
  workScheduleType : WorkScheduleType
  startDateTime : ℤ
  endDateTime : ℤ
  pathPositionRanges : List Intersection

/-! ### The code -/

/-- The check of `deserialize`: only the dates are looked at. -/
def WorkScheduleItemForm.deserialize (form : WorkScheduleItemForm) : Option WorkScheduleItemForm :=
  if form.endDateTime ≤ form.startDateTime then none else some form

def WorkScheduleItemForm.intoWorkSchedule (form : WorkScheduleItemForm) (groupId : ℤ) : WorkSchedule :=
  ⟨form.startDateTime, form.endDateTime, form.trackRanges, form.objId, form.workScheduleType, groupId⟩

def MetreRange.toTrackRange (tr : MetreRange) : TrackRange :=
  ⟨tr.track, toMillimeters tr.beginAt, toMillimeters tr.endAt, .StartToStop⟩

/-- The projection of one work schedule. -/
def WorkSchedule.project (pathTrackRanges : List TrackRange) (ws : WorkSchedule) :
    Option (List Intersection) := do
  let pathProjection ← PathProjection.new (ws.trackRanges.map (·.toTrackRange))
  pathProjection.getIntersections pathTrackRanges

def projectPath (pathTrackRanges : List TrackRange) (workSchedules : List WorkSchedule) :
    Option (List WorkScheduleProjection) := do
  let projections ← workSchedules.mapM fun ws => do return (ws, ← ws.project pathTrackRanges)
  return projections.filterMap fun (ws, pathPositionRanges) =>
    if pathPositionRanges.isEmpty then none
    else some ⟨ws.workScheduleType, ws.startDateTime, ws.endDateTime, pathPositionRanges⟩

/-! ### When it panics -/

/-- A work schedule is projected exactly when its ranges are on pairwise distinct tracks and neither they nor
    the ranges of the path end before they begin. -/
theorem WorkSchedule.project_isSome_iff (path : List TrackRange) (ws : WorkSchedule) :
    (ws.project path).isSome ↔ (ws.trackRanges.map (·.track)).Nodup ∧
      (∀ tr ∈ ws.trackRanges, toMillimeters tr.beginAt ≤ toMillimeters tr.endAt) ∧
      ∀ r ∈ path, r.beginAt ≤ r.endAt := by
  have htracks : (ws.trackRanges.map (·.toTrackRange)).map (·.trackSection) =
      ws.trackRanges.map (·.track) := by
    rw [List.map_map]
    rfl
  have hranges : (∀ r ∈ ws.trackRanges.map (·.toTrackRange), r.beginAt ≤ r.endAt) ↔
      ∀ tr ∈ ws.trackRanges, toMillimeters tr.beginAt ≤ toMillimeters tr.endAt := by
    simp [MetreRange.toTrackRange]
  rw [← htracks, ← hranges, isSome_iff_exists]
  constructor
  · rintro ⟨intersections, h⟩
    obtain ⟨s, hs, h⟩ := bind_eq_some_iff.mp h
    obtain ⟨hdistinct, hordered, -⟩ := of_insertAll hs
    obtain ⟨scan, hscan, -⟩ := bind_eq_some_iff.mp h
    refine ⟨hdistinct, hordered, fun r hr => ?_⟩
    obtain ⟨_, _, hturn⟩ := Partial.exists_of_foldlM hscan hr
    obtain ⟨length, hlength, -⟩ := bind_eq_some_iff.mp hturn
    exact (ite_none_right_eq_some.mp hlength).1
  · rintro ⟨hdistinct, hordered, hpath⟩
    obtain ⟨s, hs, hspath, hindexes⟩ := new_of_ordered hdistinct hordered
    obtain ⟨intersections, h, -⟩ := hindexes.getIntersections_spec hspath hpath
    exact ⟨intersections, by rw [WorkSchedule.project, hs]; exact h⟩

/-- One work schedule that panics is enough for the whole group not to be projected. -/
theorem projectPath_isSome_iff (path : List TrackRange) (workSchedules : List WorkSchedule) :
    (projectPath path workSchedules).isSome ↔ ∀ ws ∈ workSchedules, (ws.project path).isSome := by
  rw [projectPath, bind_eq_bind, isSome_bind]
  simp only [pure_def, isSome_some, any_true, Partial.mapM_isSome_iff, bind_eq_bind, isSome_bind]

/-- What the creation endpoint accepts is projected exactly when its ranges are on distinct tracks. -/
theorem accepted_project_isSome_iff {form accepted : WorkScheduleItemForm}
    (hform : form.deserialize = some accepted) (groupId : ℤ) (path : List TrackRange) :
    ((accepted.intoWorkSchedule groupId).project path).isSome ↔ (form.trackRanges.map (·.track)).Nodup ∧
        (∀ tr ∈ form.trackRanges, toMillimeters tr.beginAt ≤ toMillimeters tr.endAt) ∧
        ∀ r ∈ path, r.beginAt ≤ r.endAt := by
  obtain ⟨-, ⟨⟩⟩ := ite_none_left_eq_some.mp hform
  exact WorkSchedule.project_isSome_iff path _

/-- A form with these ranges of a track, in metres. -/
def formOn (ranges : List (String × ℚ × ℚ)) : WorkScheduleItemForm :=
  ⟨0, 1, ranges.map fun (track, beginAt, endAt) => ⟨track, beginAt, endAt⟩, "", .Track⟩

/-- Ranges on two tracks. -/
theorem accepted_project_two_tracks :
    (((formOn [("a", 0, 1), ("b", 2, 3)]).intoWorkSchedule 0).project
      [⟨"a", 0, 500, .StartToStop⟩]).isSome := by
  refine (@accepted_project_isSome_iff (formOn [("a", 0, 1), ("b", 2, 3)]) _ rfl 0 _).mpr ⟨?_, ?_, ?_⟩
  · decide
  · decide +kernel
  · decide

/-- Two ranges of one track are accepted, and panic. -/
theorem accepted_project_one_track_twice :
    (formOn [("a", 0, 1), ("a", 2, 3)]).deserialize = some (formOn [("a", 0, 1), ("a", 2, 3)]) ∧
      ((formOn [("a", 0, 1), ("a", 2, 3)]).intoWorkSchedule 0).project [⟨"a", 0, 500, .StartToStop⟩] =
        none :=
  ⟨rfl, by decide +kernel⟩

end Osrd.Projection
