import Osrd.SimilarTrains.Traffic

/-! The path of a train of the traffic (`TrainTraffic::new`): waypoints in a row at one operational point are
    merged.

    The ends of the list are made stops when they are pushed. The last waypoint is not pushed when it is
    merged with the one before it. -/

namespace Osrd.SimilarTrains

open List

structure TrainOperationalPoint where
  id : String
  stop : Option Bool

variable {x : TrainOperationalPoint}

namespace TrainTraffic

/-- One turn of the loop over the waypoints and their indexes. -/
def addWaypoint (nbWaypoints : ℕ) (graph : List Graph.Waypoint) (waypoint : TrainOperationalPoint × ℕ) :
    List Graph.Waypoint :=
  let pushed := graph ++ [⟨waypoint.1.id,
    if waypoint.2 = 0 ∨ waypoint.2 = nbWaypoints - 1 then true else waypoint.1.stop.getD false⟩]
  match graph.getLast? with
  | none => pushed
  | some prev =>
    if prev.op = waypoint.1.id then
      graph.dropLast ++ [{ prev with stop := prev.stop || waypoint.1.stop.getD false }]
    else pushed

def new (id : Id) (name : String) (startTime : ℤ) (rollingStock speedLimitTag : String)
    (waypoints : List TrainOperationalPoint) : TrainTraffic where
  name
  startTime
  rollingStock
  speedLimitTag
  train := ⟨id, waypoints.zipIdx.foldl (addWaypoint waypoints.length) []⟩

/-- The waypoints that a waypoint of the path is made of; it is a stop if one of them asks for it. -/
structure Merges (run : List TrainOperationalPoint) (w : Graph.Waypoint) : Prop where
  ne_nil : run ≠ []
  id : ∀ x ∈ run, x.id = w.op
  stop : (∃ x ∈ run, x.stop = some true) → w.stop

/-- The waypoints in a row are merged into the path, and its ends are stops. -/
structure IsPathOf (waypoints : List TrainOperationalPoint) (path : List Graph.Waypoint) : Prop where
  distinct : path.IsChain (·.op ≠ ·.op)
  first : ∀ w ∈ path.head?, w.stop
  last : ∀ w ∈ path.getLast?, w.stop
  merges : ∃ runs, runs.flatten = waypoints ∧ List.Forall₂ Merges runs path

/-- The waypoints at the end of the list that are at the operational point of the last one. -/
def lastRun (waypoints : List TrainOperationalPoint) : List TrainOperationalPoint :=
  waypoints.reverse.takeWhile fun x => waypoints.getLast?.any (·.id = x.id)

/-- The path of some waypoints of `n`: the last waypoint of the path is made of the `run` after those
    `before`. -/
structure PathSoFar (n : ℕ) (before run : List TrainOperationalPoint) (path : List Graph.Waypoint)
    (w : Graph.Waypoint) : Prop where
  distinct : (path ++ [w]).IsChain (·.op ≠ ·.op)
  first : ∀ start ∈ (path ++ [w]).head?, start.stop
  merges : ∃ runs, runs.flatten = before ∧ List.Forall₂ Merges runs path
  last : Merges run w
  stop_iff : w.stop ↔ before = [] ∨ before.length = n - 1 ∨ ∃ x ∈ run, x.stop = some true
  other : ∀ x ∈ before.getLast?, x.id ≠ w.op

variable {n : ℕ} {before run : List TrainOperationalPoint} {path : List Graph.Waypoint} {w : Graph.Waypoint}

theorem getD_false {stop : Option Bool} : stop.getD false = true ↔ stop = some true := by
  cases stop <;> simp

/-- A waypoint at the same operational point. -/
theorem PathSoFar.merge (h : PathSoFar n before run path w) (hx : w.op = x.id) :
    PathSoFar n before (run ++ [x]) path { w with stop := w.stop || x.stop.getD false } where
  distinct := by simpa [isChain_append] using h.distinct
  first := by
    have := h.first
    cases path <;> simp_all
  merges := h.merges
  last := by
    refine ⟨by simp, fun y hy => ?_, ?_⟩
    · rcases mem_append.mp hy with hy | hy
      · exact h.last.id y hy
      · rw [mem_singleton.mp hy, hx]
    · rintro ⟨y, hy, hstop⟩
      rcases mem_append.mp hy with hy | hy
      · simp [h.last.stop ⟨y, hy, hstop⟩]
      · simp [← mem_singleton.mp hy, hstop]
  stop_iff := by simp [h.stop_iff, getD_false, or_assoc, or_and_right, exists_or]
  other := h.other

/-- A waypoint at another one. -/
theorem PathSoFar.push (h : PathSoFar n before run path w) (hx : w.op ≠ x.id)
    {stop : Bool} (hstop : stop ↔ (before ++ run).length = n - 1 ∨ x.stop = some true) :
    PathSoFar n (before ++ run) [x] (path ++ [w]) ⟨x.id, stop⟩ where
  distinct := isChain_append.mpr ⟨h.distinct, by simp, by simpa using hx⟩
  first := by
    have := h.first
    cases path <;> simp_all
  merges := by
    obtain ⟨runs, hflatten, hruns⟩ := h.merges
    exact ⟨runs ++ [run], by simp [hflatten], rel_append hruns (.cons h.last .nil)⟩
  last := ⟨by simp, by simp, by simp +contextual [hstop]⟩
  stop_iff := by simp [hstop, h.last.ne_nil]
  other := by
    obtain ⟨run, y, rfl⟩ := (eq_nil_or_concat run).resolve_left h.last.ne_nil
    simpa [← h.last.id y (by simp)] using hx

theorem pathSoFar (n : ℕ) {waypoints : List TrainOperationalPoint} (hne : waypoints ≠ []) :
    ∃ before run path w,
    waypoints = before ++ run ∧ waypoints.zipIdx.foldl (addWaypoint n) [] = path ++ [w] ∧
      PathSoFar n before run path w := by
  induction waypoints using reverseRecOn with
  | nil => exact absurd rfl hne
  | append_singleton waypoints x ih =>
    rw [zipIdx_append, foldl_append]
    by_cases hnil : waypoints = []
    · refine ⟨[], [x], [], ⟨x.id, true⟩, by simp [hnil], by simp [hnil, addWaypoint], ?_⟩
      exact ⟨by simp, by simp, ⟨[], rfl, .nil⟩, ⟨by simp, by simp, by simp⟩, by simp, by simp⟩
    · obtain ⟨before, run, path, w, rfl, hpath, h⟩ := ih hnil
      rw [hpath]
      by_cases hx : w.op = x.id
      · refine ⟨before, run ++ [x], path, _, by simp, ?_, h.merge hx⟩
        simp [addWaypoint, hx]
      · refine ⟨before ++ run, [x], path ++ [w], ⟨x.id, _⟩, by simp, by simp [addWaypoint, hx]; rfl,
          h.push hx ?_⟩
        simp [h.last.ne_nil, getD_false]

theorem PathSoFar.lastRun_eq (h : PathSoFar n before run path w) :
    lastRun (before ++ run) = run.reverse := by
  have hlast : (before ++ run).getLast? = run.getLast? := getLast?_append_of_ne_nil _ h.last.ne_nil
  have hid : ∀ x : TrainOperationalPoint, run.getLast?.any (·.id = x.id) = decide (w.op = x.id) := by
    intro x
    obtain ⟨run, y, rfl⟩ := (eq_nil_or_concat run).resolve_left h.last.ne_nil
    simp [h.last.id y (by simp)]
  simp only [lastRun, hlast, hid, reverse_append]
  rw [takeWhile_append_of_pos (by simpa using fun x hx => (h.last.id x hx).symm)]
  rcases eq_nil_or_concat before with rfl | ⟨before, x, rfl⟩
  · simp
  · have := h.other x (by simp)
    simp [this.symm]

/-- The path is right iff the last waypoint is not merged with others that do not stop, or with all of
    them. -/
theorem new_isPathOf_iff (id : Id) (name : String) (startTime : ℤ) (rollingStock speedLimitTag : String)
    {waypoints : List TrainOperationalPoint} (hne : waypoints ≠ []) :
    IsPathOf waypoints (new id name startTime rollingStock speedLimitTag waypoints).train.path ↔
      (lastRun waypoints).length = waypoints.length ∨ (lastRun waypoints).length = 1 ∨
        ∃ x ∈ lastRun waypoints, x.stop = some true := by
  obtain ⟨before, run, path, w, hwaypoints, hpath, h⟩ := pathSoFar waypoints.length hne
  have hlast := h.lastRun_eq
  rw [← hwaypoints] at hlast
  have hpos := length_pos_iff.mpr h.last.ne_nil
  have hcond : w.stop ↔ (lastRun waypoints).length = waypoints.length ∨ (lastRun waypoints).length = 1 ∨
      ∃ x ∈ lastRun waypoints, x.stop = some true := by
    rw [h.stop_iff, hlast, hwaypoints, ← length_eq_zero_iff]
    simp only [length_reverse, length_append, mem_reverse]
    refine or_congr (by omega) (or_congr_left (by omega))
  rw [← hcond, new, hpath]
  refine ⟨fun hpath => hpath.last w (by simp), fun hstop => ⟨h.distinct, h.first, by simpa using hstop, ?_⟩⟩
  obtain ⟨runs, hflatten, hruns⟩ := h.merges
  exact ⟨runs ++ [run], by simp [hflatten, hwaypoints], rel_append hruns (.cons h.last .nil)⟩

theorem new_isPathOf_iff_twoPoints : IsPathOf [⟨"A", none⟩, ⟨"B", none⟩]
    (new 1 "T" 0 "rs" "tag" [⟨"A", none⟩, ⟨"B", none⟩]).train.path :=
  (new_isPathOf_iff 1 "T" 0 "rs" "tag" (by simp)).mpr (by simp [lastRun])

/-- The last waypoint twice: it is not a stop. -/
theorem new_path_lastTwice : (new 1 "T" 0 "rs" "tag" [⟨"A", none⟩, ⟨"B", none⟩, ⟨"B", none⟩]).train.path =
    [⟨"A", true⟩, ⟨"B", false⟩] := by
  decide

end TrainTraffic

end Osrd.SimilarTrains
