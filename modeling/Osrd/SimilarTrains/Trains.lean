import Mathlib.Data.List.ModifyLast
import Osrd.Lib.EdgeWalk
import Osrd.Lib.InvertedIndex
import Osrd.Lib.Partial

/-! The new train and the past trains it is compared with (`editoast/.../timetable/similar_trains`,
    `new_train.rs` and `past_train.rs`).

    The new train is cut at its stops into segments. A past train is a candidate for a segment when two of
    its stops in a row are the ends of the segment; the part of its path that is then used starts at its
    first passage at one end and stops at its first passage at the other. These passages are the two stops
    only if the train has not been at either place before (`clampPath_between_iff`). -/

namespace Osrd.SimilarTrains

open EdgeWalk List

abbrev OperationalPoint := String

abbrev Id := ℕ

/-! ### The new train -/

inductive NewTrain.Kind
  | PassingBy
  | Stop
deriving DecidableEq

structure NewTrain.Waypoint where
  op : OperationalPoint
  kind : NewTrain.Kind
deriving DecidableEq

/-- At least two waypoints, of which the first and the last are stops. -/
structure NewTrain where
  waypoints : List NewTrain.Waypoint
  two_le : 2 ≤ waypoints.length
  first_stop : ∀ w ∈ waypoints.head?, w.kind = .Stop
  last_stop : ∀ w ∈ waypoints.getLast?, w.kind = .Stop

inductive InvalidTrain
  | NotEnoughWaypoints
  | FirstWaypointIsntStop
  | LastWaypointIsntStop
deriving DecidableEq

/-- The waypoints from a stop to the next one. -/
structure Segment where
  beginAt : NewTrain.Waypoint
  passingBy : List NewTrain.Waypoint
  endAt : NewTrain.Waypoint
deriving DecidableEq

namespace Segment

def intoPath (s : Segment) : List NewTrain.Waypoint := s.beginAt :: s.passingBy ++ [s.endAt]

/-- `none` is a failed `expect` or `assert!`. -/
def fromPath : List NewTrain.Waypoint → Option Segment
  | [] => none
  | start :: path =>
      match path.getLast? with
      | none => none
      | some stop =>
          if start.kind = .Stop ∧ stop.kind = .Stop then some ⟨start, path.dropLast, stop⟩ else none

end Segment

variable {w : Waypoint} (train : NewTrain)

namespace NewTrain

def new (waypoints : List Waypoint) : Except InvalidTrain NewTrain :=
  if hlength : waypoints.length < 2 then .error .NotEnoughWaypoints
  else if hfirst : ∀ w ∈ waypoints.head?, w.kind = .Stop then
    if hlast : ∀ w ∈ waypoints.getLast?, w.kind = .Stop then
      .ok ⟨waypoints, not_lt.mp hlength, hfirst, hlast⟩
    else .error .LastWaypointIsntStop
  else .error .FirstWaypointIsntStop

theorem ne_nil : train.waypoints ≠ [] :=
  ne_nil_of_length_pos (Nat.two_pos.trans_le train.two_le)

def beginAt (train : NewTrain) : Waypoint := train.waypoints.head train.ne_nil

def endAt (train : NewTrain) : Waypoint := train.waypoints.getLast train.ne_nil

/-- One turn of the loop of `into_segments`; `none` is the `unreachable!`. -/
def segmentStep (segments : List (List Waypoint)) (waypoint : Waypoint) :
    Option (List (List Waypoint)) :=
  match waypoint.kind with
  | .Stop => some (segments.modifyLast (· ++ [waypoint]) ++ [[waypoint]])
  | .PassingBy =>
      if segments.isEmpty then none else some (segments.modifyLast (· ++ [waypoint]))

/-- The last segment is dropped when it has only one waypoint. -/
def dropSingleton (segments : List (List Waypoint)) : List (List Waypoint) :=
  if segments.getLast?.map List.length = some 1 then segments.dropLast else segments

/-- `none` is a panic. -/
def intoSegments (train : NewTrain) : Option (List Segment) :=
  (train.waypoints.foldlM segmentStep []).bind fun segments =>
    (dropSingleton segments).mapM Segment.fromPath

/-- Between two stops the train only passes by. -/
structure Cut (s : Segment) : Prop where
  begin_stop : s.beginAt.kind = .Stop
  passingBy : ∀ w ∈ s.passingBy, w.kind = .PassingBy
  end_stop : s.endAt.kind = .Stop

theorem fromPath_intoPath {s : Segment} (h : Cut s) : Segment.fromPath s.intoPath = some s := by
  simp [Segment.intoPath, Segment.fromPath, h.begin_stop, h.end_stop]

/-- What the loop has made of the waypoints so far: whole segments, and one that is open. -/
structure Open (first : Waypoint) (segments : List Segment) (start : Waypoint)
    (passingBy : List Waypoint) : Prop where
  chain : IsWalk Segment.beginAt Segment.endAt first segments start
  cut : ∀ s ∈ segments, Cut s
  start_stop : start.kind = .Stop
  passingBy : ∀ w ∈ passingBy, w.kind = .PassingBy

def openPaths (segments : List Segment) (start : Waypoint) (passingBy : List Waypoint) :
    List (List Waypoint) :=
  segments.map Segment.intoPath ++ [start :: passingBy]

variable {segments : List Segment} {passingBy : List Waypoint}

theorem segmentStep_stop {start : Waypoint} (hw : w.kind = .Stop) :
    segmentStep (openPaths segments start passingBy) w =
      some (openPaths (segments ++ [⟨start, passingBy, w⟩]) w []) := by
  simp [segmentStep, openPaths, hw, Segment.intoPath, modifyLast_concat]

theorem segmentStep_passingBy {start : Waypoint} (hw : w.kind = .PassingBy) :
    segmentStep (openPaths segments start passingBy) w =
      some (openPaths segments start (passingBy ++ [w])) := by
  simp [segmentStep, openPaths, hw, modifyLast_concat]

theorem dropSingleton_openPaths (segments : List Segment) (w : Waypoint) :
    dropSingleton (openPaths segments w []) = segments.map Segment.intoPath := by
  simp [dropSingleton, openPaths]

theorem Open.close {first start : Waypoint} (h : Open first segments start passingBy)
    (hw : w.kind = .Stop) : Open first (segments ++ [⟨start, passingBy, w⟩]) w [] where
  chain := h.chain.append ⟨rfl, rfl⟩
  cut s hs := by
    rcases mem_append.mp hs with hs | hs
    · exact h.cut s hs
    · rw [mem_singleton.mp hs]
      exact ⟨h.start_stop, h.passingBy, hw⟩
  start_stop := hw
  passingBy := by simp

theorem foldlM_segmentStep {first : Waypoint} (hfirst : first.kind = .Stop) (ws : List Waypoint) :
    ∃ segments start passingBy, (first :: ws).foldlM segmentStep [] =
      some (openPaths segments start passingBy) ∧ Open first segments start passingBy := by
  induction ws using reverseRecOn with
  | nil =>
    refine ⟨[], first, [], ?_, rfl, by simp, hfirst, by simp⟩
    simp [segmentStep, hfirst, openPaths, modifyLast, modifyLast.go]
  | append_singleton ws w ih =>
    obtain ⟨segments, start, passingBy, hfold, h⟩ := ih
    rw [← cons_append, foldlM_append, hfold]
    cases hw : w.kind with
    | Stop =>
      exact ⟨_, w, [], by simp [segmentStep_stop hw], h.close hw⟩
    | PassingBy =>
      refine ⟨segments, start, passingBy ++ [w], by simp [segmentStep_passingBy hw], h.chain, h.cut,
        h.start_stop, ?_⟩
      intro v hv
      rcases mem_append.mp hv with hv | hv
      · exact h.passingBy v hv
      · rw [mem_singleton.mp hv, hw]

theorem mapM_fromPath (h : ∀ s ∈ segments, Cut s) :
    (segments.map Segment.intoPath).mapM Segment.fromPath = some segments := by
  refine Partial.mapM_eq_some_iff.mpr ?_
  rw [map_map]
  exact map_congr_left fun s hs => fromPath_intoPath (h s hs)

theorem exists_ends :
    ∃ first ws last, train.waypoints = first :: (ws ++ [last]) ∧ first.kind = .Stop ∧
      last.kind = .Stop := by
  obtain ⟨waypoints, hlength, hfirst, hlast⟩ := train
  obtain _ | ⟨first, ws⟩ := waypoints
  · simp at hlength
  obtain rfl | ⟨ws, last, rfl⟩ := eq_nil_or_concat ws
  · simp at hlength
  rw [concat_eq_append, ← cons_append, getLast?_concat] at hlast
  exact ⟨first, ws, last, by simp, hfirst first rfl, hlast last rfl⟩

/-- An accepted train is cut from stop to stop, from its first waypoint to its last one. -/
theorem intoSegments_spec :
    ∃ segments, train.intoSegments = some segments ∧ segments ≠ [] ∧
      IsWalk Segment.beginAt Segment.endAt train.beginAt segments train.endAt ∧
      ∀ s ∈ segments, Cut s := by
  obtain ⟨first, ws, last, heq, hfirst, hlast⟩ := train.exists_ends
  obtain ⟨segments, start, passingBy, hfold, h⟩ := foldlM_segmentStep hfirst ws
  have hclosed := h.close hlast
  have hsegments : train.intoSegments = some (segments ++ [⟨start, passingBy, last⟩]) := by
    rw [intoSegments, heq, ← cons_append, foldlM_append, hfold]
    rw [Option.bind_eq_bind, Option.bind_some, foldlM_cons, segmentStep_stop hlast]
    rw [Option.bind_eq_bind, Option.bind_some, foldlM_nil, Option.pure_def, Option.bind_some,
      dropSingleton_openPaths]
    exact mapM_fromPath hclosed.cut
  have hbegin : train.beginAt = first := by simp [beginAt, heq]
  have hend : train.endAt = last := by simp [endAt, heq]
  refine ⟨_, hsegments, by simp, ?_, hclosed.cut⟩
  rw [hbegin, hend]
  exact hclosed.chain

end NewTrain

/-! ### Past trains -/

structure Graph.Waypoint where
  op : OperationalPoint
  stop : Bool
deriving DecidableEq

structure PastTrain where
  id : Id
  path : List Graph.Waypoint
deriving DecidableEq

namespace PastTrain

def iterStops (train : PastTrain) : List Graph.Waypoint := train.path.filter (·.stop)

/-- The stops in a row, by operational point. -/
def stopPairs (train : PastTrain) : List (OperationalPoint × OperationalPoint) :=
  let ops := train.iterStops.map (·.op)
  ops.zip ops.tail

/-- The index of the first passage. -/
def rank (train : PastTrain) (op : OperationalPoint) : Option ℕ :=
  train.path.findIdx? (·.op = op)

/-- The path from the first passage at the start of the segment to the first one at its end. -/
def clampPath (train : PastTrain) (segment : Segment) : Option (List Graph.Waypoint) :=
  match train.rank segment.beginAt.op, train.rank segment.endAt.op with
  | some s, some e => if s ≤ e then some ((train.path.drop s).take (e + 1 - s)) else none
  | _, _ => none

end PastTrain

/-- The past trains, with an index from each pair of stops in a row. -/
structure Pool where
  trains : List PastTrain
  segmentIndex : InvertedIndex (OperationalPoint × OperationalPoint) ℕ
  indexed : ∀ key i, segmentIndex.Lists key i ↔
    ∃ train, trains[i]? = some train ∧ key ∈ train.stopPairs

variable {train : PastTrain} {segment : Segment}

namespace Pool

/-- The trains at the indices of the segment. All are in range, by `indexed`; the order of the hash set is
    that of the indices here. -/
def trainsInSegment (pool : Pool) (segment : Segment) : List PastTrain :=
  let indices := (pool.segmentIndex (segment.beginAt.op, segment.endAt.op)).getD ∅
  ((List.finRange pool.trains.length).filter fun i => i.1 ∈ indices).map pool.trains.get

def new : Pool := ⟨[], .empty, by simp [InvertedIndex.Lists, InvertedIndex.empty]⟩

/-- One train of `extend`. -/
def push (pool : Pool) (train : PastTrain) : Pool where
  trains := pool.trains ++ [train]
  segmentIndex := pool.segmentIndex.insertAll pool.trains.length train.stopPairs
  indexed key i := by
    rw [InvertedIndex.lists_insertAll, pool.indexed]
    rcases lt_trichotomy i pool.trains.length with hlt | rfl | hgt
    · simp [List.getElem?_append_left hlt, hlt.ne]
    · simp
    · have hnone : (pool.trains ++ [train])[i]? = none :=
        List.getElem?_eq_none (by simpa using Nat.succ_le_of_lt hgt)
      simp [List.getElem?_eq_none hgt.le, hgt.ne', hnone]

def extend (pool : Pool) (trains : List PastTrain) : Pool := trains.foldl push pool

def fromIter (trains : List PastTrain) : Pool := new.extend trains

theorem extend_trains (trains : List PastTrain) :
    ∀ pool : Pool, (pool.extend trains).trains = pool.trains ++ trains := by
  induction trains with
  | nil => simp [extend]
  | cons train trains ih =>
    intro pool
    rw [extend, foldl_cons, ← extend, ih]
    simp [push]

theorem mem_getD {pool : Pool} {key : OperationalPoint × OperationalPoint} {i : ℕ} :
    i ∈ (pool.segmentIndex key).getD ∅ ↔
      ∃ train, pool.trains[i]? = some train ∧ key ∈ train.stopPairs := by
  rw [← pool.indexed, InvertedIndex.Lists]
  cases pool.segmentIndex key <;> simp

/-- The candidates of a segment have two stops in a row at its ends. -/
theorem mem_trainsInSegment {trains : List PastTrain} :
    train ∈ (fromIter trains).trainsInSegment segment ↔
      train ∈ trains ∧ (segment.beginAt.op, segment.endAt.op) ∈ train.stopPairs := by
  have htrains : (fromIter trains).trains = trains := by simp [fromIter, extend_trains, new]
  have hmem : train ∈ (fromIter trains).trains ↔ train ∈ trains := by rw [htrains]
  simp only [trainsInSegment, mem_map, mem_filter, mem_finRange, true_and, decide_eq_true_eq, mem_getD]
  rw [← hmem]
  constructor
  · rintro ⟨i, ⟨train', htrain', hpairs⟩, rfl⟩
    rw [getElem?_eq_getElem i.2, Option.some.injEq] at htrain'
    subst htrain'
    exact ⟨get_mem _ _, hpairs⟩
  · rintro ⟨hmem, hpairs⟩
    obtain ⟨i, rfl⟩ := get_of_mem hmem
    exact ⟨i, ⟨_, getElem?_eq_getElem i.2, hpairs⟩, rfl⟩

end Pool

/-! ### The part of a past train that is used -/

namespace PastTrain

variable {op : OperationalPoint}

theorem rank_eq_some {i : ℕ} :
    train.rank op = some i ↔ ∃ pre w post, train.path = pre ++ w :: post ∧ pre.length = i ∧
      w.op = op ∧ ∀ v ∈ pre, v.op ≠ op := by
  rw [rank, findIdx?_eq_some_iff_getElem]
  constructor
  · rintro ⟨hi, hop, hbefore⟩
    refine ⟨train.path.take i, train.path[i], train.path.drop (i + 1), ?_, ?_, by simpa using hop, ?_⟩
    · rw [getElem_cons_drop, take_append_drop]
    · rw [length_take, min_eq_left hi.le]
    · intro v hv
      obtain ⟨j, hj, rfl⟩ := mem_take_iff_getElem.mp hv
      simpa using hbefore j (hj.trans_le (min_le_left _ _))
  · rintro ⟨pre, w, post, heq, rfl, hop, hbefore⟩
    simp only [heq]
    refine ⟨by simp, by simpa using hop, ?_⟩
    intro j hj
    rw [getElem_append_left hj]
    simpa using hbefore _ (getElem_mem hj)

/-- What comes sooner on the path than the second cut is before it. -/
theorem mem_of_append_eq {α : Type} {pre pre' post post' : List α} {w : α}
    (h : pre ++ w :: post = pre' ++ post') (hlt : pre.length < pre'.length) : w ∈ pre' := by
  have hinit : pre ++ [w] <+: pre' := by
    refine prefix_of_prefix_length_le ⟨post, ?_⟩ ⟨post', h.symm⟩ ?_
    · rw [append_assoc, singleton_append]
    · rw [length_append, length_singleton]
      exact hlt
  exact hinit.subset (mem_append_right _ mem_cons_self)

/-- The first passage is not after another one. -/
theorem rank_le {i : ℕ} (h : train.rank op = some i) {pre post : List Graph.Waypoint} {w : Graph.Waypoint}
    (heq : train.path = pre ++ w :: post) (hop : w.op = op) : i ≤ pre.length := by
  obtain ⟨pre', w', post', heq', rfl, -, hbefore⟩ := rank_eq_some.mp h
  by_contra hlt
  exact hbefore w (mem_of_append_eq (heq.symm.trans heq') (not_le.mp hlt)) hop

theorem exists_rank (h : ∃ w ∈ train.path, w.op = op) : ∃ i, train.rank op = some i := by
  obtain ⟨w, hw, hop⟩ := h
  refine Option.isSome_iff_exists.mp ?_
  rw [rank, findIdx?_isSome, any_eq_true]
  exact ⟨w, hw, by simpa using hop⟩

theorem slice_eq {α : Type} {path pre slice post : List α} {s e : ℕ}
    (heq : path = pre ++ (slice ++ post)) (hs : pre.length = s) (he : s + slice.length = e + 1) :
    (path.drop s).take (e + 1 - s) = slice := by
  rw [heq, drop_left' hs, take_left' (by omega)]

/-- What is used is the path from the first passage at the start to the first one at the end. -/
theorem clampPath_eq_some {slice : List Graph.Waypoint} : train.clampPath segment = some slice ↔
      (∃ pre w mid w' post, train.path = pre ++ (w :: (mid ++ [w']) ++ post) ∧
        slice = w :: (mid ++ [w']) ∧ w.op = segment.beginAt.op ∧ w'.op = segment.endAt.op ∧
        (∀ v ∈ pre, v.op ≠ segment.beginAt.op) ∧ ∀ v ∈ pre ++ w :: mid, v.op ≠ segment.endAt.op) ∨
      (segment.beginAt.op = segment.endAt.op ∧ ∃ pre w post, train.path = pre ++ ([w] ++ post) ∧
        slice = [w] ∧ w.op = segment.beginAt.op ∧ ∀ v ∈ pre, v.op ≠ segment.beginAt.op) := by
  constructor
  · intro h
    simp only [clampPath] at h
    split at h
    · next s e hs he =>
      split at h
      · next hle =>
        cases h
        obtain ⟨pre, w, post, heq, hpre, hop, hbefore⟩ := rank_eq_some.mp hs
        obtain ⟨pre', w', post', heq', hpre', hop', hbefore'⟩ := rank_eq_some.mp he
        obtain ⟨mid, rfl⟩ : pre <+: pre' := prefix_of_prefix_length_le
          ⟨w :: post, heq.symm⟩ ⟨w' :: post', heq'.symm⟩ (by omega)
        rw [heq, append_assoc] at heq'
        have hrest := append_cancel_left heq'
        cases mid with
        | nil =>
          obtain ⟨rfl, rfl⟩ := cons_eq_cons.mp hrest
          simp only [append_nil] at hpre'
          have hslice : (train.path.drop s).take (e + 1 - s) = [w] :=
            slice_eq heq hpre (by simp only [length_singleton]; omega)
          exact .inr ⟨hop ▸ hop', pre, w, post, heq, hslice, hop, hbefore⟩
        | cons v mid =>
          obtain ⟨rfl, rfl⟩ := cons_eq_cons.mp hrest
          have heq : train.path = pre ++ (w :: (mid ++ [w']) ++ post') := by simp [heq]
          simp only [length_append, length_cons] at hpre'
          have hslice : (train.path.drop s).take (e + 1 - s) = w :: (mid ++ [w']) :=
            slice_eq heq hpre (by simp only [length_append, length_cons, length_nil]; omega)
          exact .inl ⟨pre, w, mid, w', post', heq, hslice, hop, hop', hbefore, hbefore'⟩
      · cases h
    · cases h
  · rintro (⟨pre, w, mid, w', post, heq, rfl, hop, hop', hbefore, hbefore'⟩ |
      ⟨hsame, pre, w, post, heq, rfl, hop, hbefore⟩)
    · have hs : train.rank segment.beginAt.op = some pre.length :=
        rank_eq_some.mpr ⟨pre, w, mid ++ w' :: post, by simp [heq], rfl, hop, hbefore⟩
      have he : train.rank segment.endAt.op = some (pre ++ w :: mid).length :=
        rank_eq_some.mpr ⟨pre ++ w :: mid, w', post, by simp [heq], rfl, hop', hbefore'⟩
      simp only [clampPath, hs, he, length_append, Nat.le_add_right, if_true]
      rw [slice_eq heq rfl (by simp only [length_append, length_cons, length_nil]; omega)]
    · have hs : train.rank segment.beginAt.op = some pre.length :=
        rank_eq_some.mpr ⟨pre, w, post, by simp [heq], rfl, hop, hbefore⟩
      simp only [clampPath, ← hsame, hs, le_refl, if_true]
      rw [slice_eq heq rfl (by simp)]

/-- The slice goes from a stop at the start of the segment to a stop at its end, without another. -/
structure BetweenStops (train : PastTrain) (segment : Segment) (slice : List Graph.Waypoint) :
    Prop where
  infix_path : slice <:+: train.path
  head : slice.head? = some ⟨segment.beginAt.op, true⟩
  last : slice.getLast? = some ⟨segment.endAt.op, true⟩
  inner : ∀ w ∈ slice.tail.dropLast, w.stop = false

/-- The train has two stops in a row at the ends of the segment and has not been at either place before;
    where both ends are one place, it stops there the first time. -/
def FreshStops (train : PastTrain) (segment : Segment) : Prop :=
  (∃ pre mid post, train.path =
      pre ++ (⟨segment.beginAt.op, true⟩ :: (mid ++ [⟨segment.endAt.op, true⟩]) ++ post) ∧
    (∀ v ∈ mid, v.stop = false) ∧ (∀ v ∈ pre, v.op ≠ segment.beginAt.op) ∧
    ∀ v ∈ pre ++ ⟨segment.beginAt.op, true⟩ :: mid, v.op ≠ segment.endAt.op) ∨
  segment.beginAt.op = segment.endAt.op ∧ ∃ pre post,
    train.path = pre ++ ([⟨segment.beginAt.op, true⟩] ++ post) ∧
    ∀ v ∈ pre, v.op ≠ segment.beginAt.op

theorem clampPath_between_iff :
    (∃ slice, train.clampPath segment = some slice ∧ train.BetweenStops segment slice) ↔
      train.FreshStops segment := by
  constructor
  · rintro ⟨slice, hslice, hbetween⟩
    rcases clampPath_eq_some.mp hslice with
      ⟨pre, w, mid, w', post, heq, rfl, -, -, hbefore, hbefore'⟩ |
      ⟨hsame, pre, w, post, heq, rfl, -, hbefore⟩
    · obtain ⟨-, hhead, hlast, hinner⟩ := hbetween
      rw [← cons_append, getLast?_concat, Option.some.injEq] at hlast
      rw [head?_cons, Option.some.injEq] at hhead
      subst hhead hlast
      exact .inl ⟨pre, mid, post, heq, by simpa using hinner, hbefore, hbefore'⟩
    · have hhead := hbetween.head
      rw [head?_cons, Option.some.injEq] at hhead
      subst hhead
      exact .inr ⟨hsame, pre, post, heq, hbefore⟩
  · rintro (⟨pre, mid, post, heq, hmid, hbefore, hbefore'⟩ | ⟨hsame, pre, post, heq, hbefore⟩)
    · refine ⟨_, clampPath_eq_some.mpr (.inl ⟨pre, _, mid, _, post, heq, rfl, rfl, rfl, hbefore,
        hbefore'⟩), ⟨pre, post, ?_⟩, rfl, ?_, by simpa using hmid⟩
      · rw [heq, append_assoc]
      · rw [← cons_append, getLast?_concat]
    · refine ⟨_, clampPath_eq_some.mpr (.inr ⟨hsame, pre, _, post, heq, rfl, rfl, hbefore⟩),
        ⟨pre, post, ?_⟩, rfl, by rw [← hsame]; rfl, by simp⟩
      rw [heq, append_assoc]

end PastTrain

/-- Each candidate of each segment is used between its stops iff it has not passed there before. -/
theorem clampPath_candidates_iff (pastTrains : List PastTrain) (newTrain : NewTrain) :
    ∃ segments, newTrain.intoSegments = some segments ∧
      ∀ segment ∈ segments, ∀ train ∈ (Pool.fromIter pastTrains).trainsInSegment segment,
        ((∃ slice, train.clampPath segment = some slice ∧ train.BetweenStops segment slice) ↔
          train.FreshStops segment) := by
  obtain ⟨segments, hsegments, -⟩ := newTrain.intoSegments_spec
  exact ⟨segments, hsegments, fun _ _ _ _ => PastTrain.clampPath_between_iff⟩

/-- From `B` to `A`, for a train that came from `A`: it is a candidate, and nothing of it can be used. -/
theorem clampPath_returning_train :
    ∃ newTrain segment train, NewTrain.new [⟨"B", .Stop⟩, ⟨"A", .Stop⟩] = .ok newTrain ∧
      newTrain.intoSegments = some [segment] ∧
      train ∈ (Pool.fromIter [⟨1, [⟨"A", true⟩, ⟨"B", true⟩, ⟨"A", true⟩]⟩]).trainsInSegment segment ∧
      train.clampPath segment = none :=
  ⟨⟨[⟨"B", .Stop⟩, ⟨"A", .Stop⟩], by decide, by decide, by decide⟩, ⟨⟨"B", .Stop⟩, [], ⟨"A", .Stop⟩⟩,
    ⟨1, [⟨"A", true⟩, ⟨"B", true⟩, ⟨"A", true⟩]⟩, rfl, by decide, by decide, by decide⟩

end Osrd.SimilarTrains
