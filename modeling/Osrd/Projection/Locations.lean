import Osrd.Projection.PathProjection

/-! `get_location` and `get_position` are inverse to each other.

    The locations of a position are the points at that distance from the start of the path on each range
    that reaches it (`getPosition_eq_some_iff`): one range, or two when the position is the limit between
    them. The search finds the last range that starts at or before the position. -/

namespace Osrd.Projection

open Partial (checkedSub_of_le)
open Option TrackRange Nat

/-! ### The point of a range at a distance from its start -/

def TrackRange.at (r : TrackRange) (distance : ℕ) : TrackOffset :=
  if r.direction = .StartToStop then ⟨r.trackSection, distance + r.beginAt⟩
  else ⟨r.trackSection, r.endAt - distance⟩

variable {r : TrackRange} {distance : ℕ}

@[simp] theorem TrackRange.at_track : (r.at distance).track = r.trackSection := by
  rw [TrackRange.at]
  split <;> rfl

theorem TrackRange.offset_eq (hr : r.beginAt ≤ r.endAt) (h : distance ≤ r.extent) :
    r.offset distance = some ⟨r, distance⟩ := by
  rw [offset, length_eq hr]
  exact if_pos h

theorem TrackRangeOffset.asTrackOffset_eq (h : distance ≤ r.extent) :
    (⟨r, distance⟩ : TrackRangeOffset).asTrackOffset = some (r.at distance) := by
  have hle : distance ≤ r.endAt := h.trans (sub_le _ _)
  rw [asTrackOffset, TrackRange.at]
  split
  · rfl
  · rw [checkedSub_of_le hle]
    rfl

theorem TrackRange.at_extent (hr : r.beginAt ≤ r.endAt) : r.at r.extent = ⟨r.trackSection, r.stop⟩ := by
  rw [TrackRange.at, stop, extent]
  split
  · rw [Nat.sub_add_cancel hr]
  · rw [Nat.sub_sub_self hr]

namespace PathProjection

variable {s : PathProjection} {path : List TrackRange}

/-- The position of a location is `p` when it is at `p` on some range of the path. -/
theorem Indexes.getPosition_eq_some_iff (h : s.Indexes path) (hpath : s.path = path)
    (hvalid : ValidPath path) (l : TrackOffset) (p : ℕ) : s.getPosition l = some p ↔
      ∃ i r, path[i]? = some r ∧ startOf path i ≤ p ∧ p ≤ startOf path (i + 1) ∧
        l = r.at (p - startOf path i) := by
  constructor
  · intro hposition
    obtain ⟨track, offset⟩ := l
    obtain ⟨base, hbase, hrest⟩ := bind_eq_some_iff.mp hposition
    obtain ⟨r, hrange, hinside⟩ := bind_eq_some_iff.mp hrest
    obtain ⟨i, hi, hr⟩ := bind_eq_some_iff.mp hrange
    rw [hpath] at hr
    rw [h.position, hi, map_some, some.injEq] at hbase
    obtain ⟨r', hr', rfl⟩ := (h.index_iff _ _).mp hi
    obtain rfl : r' = r := some.inj (hr'.symm.trans hr)
    refine ⟨i, r', hr, ?_⟩
    rw [startOf_succ hr, extent, TrackRange.at]
    simp only [ite_none_left_eq_some, not_or] at hinside
    obtain ⟨⟨hbegin, hend⟩, hinside⟩ := hinside
    split at hinside
    · next hdirection =>
      cases hinside
      rw [if_pos hdirection]
      exact ⟨by omega, by omega, by congr 1; omega⟩
    · next hdirection =>
      cases hinside
      rw [if_neg hdirection]
      exact ⟨by omega, by omega, by congr 1; omega⟩
  · rintro ⟨i, r, hr, hge, hle, rfl⟩
    have hordered := hvalid.ordered r (List.mem_of_getElem? hr)
    have hindex := (h.index_iff _ _).mpr ⟨r, hr, rfl⟩
    rw [startOf_succ hr, extent] at hle
    simp only [getPosition, getTrackRange, at_track, h.position, hindex, hpath, hr,
      map_some, bind_eq_bind, bind_some]
    by_cases hdirection : r.direction = .StartToStop
    · simp only [TrackRange.at, if_pos hdirection]
      rw [if_neg (by omega)]
      exact congrArg some (by omega)
    · simp only [TrackRange.at, if_neg hdirection]
      rw [if_neg (by omega)]
      exact congrArg some (by omega)

/-- The last range that starts at or before a position. -/
theorem exists_last_start (hne : path ≠ []) (p : ℕ) : ∃ i r, path[i]? = some r ∧
    startOf path i ≤ p ∧ ∀ j, i < j → j < path.length → p < startOf path j := by
  have hlength : 0 < path.length := List.length_pos_iff.mpr hne
  have hzero : startOf path 0 ≤ p := zero_le _
  -- by the largest such index
  obtain ⟨i, hi, hmax⟩ : ∃ i, (i < path.length ∧ startOf path i ≤ p) ∧
      ∀ j, i < j → ¬ (j < path.length ∧ startOf path j ≤ p) := by
    refine ⟨findGreatest (fun i => i < path.length ∧ startOf path i ≤ p) path.length, ?_, ?_⟩
    · exact findGreatest_spec (P := fun i => i < path.length ∧ startOf path i ≤ p)
        (zero_le _) ⟨hlength, hzero⟩
    · exact fun j hj hP => findGreatest_is_greatest hj hP.1.le hP
  refine ⟨i, path[i], List.getElem?_eq_getElem hi.1, hi.2, fun j hij hj => ?_⟩
  by_contra hle
  exact hmax j hij ⟨hj, not_lt.mp hle⟩

variable {p i : ℕ}

theorem Indexes.startsAfter_eq (h : s.Indexes path) (hpath : s.path = path) (hi : i < path.length) :
    s.startsAfter p i = some (decide (p < startOf path i)) := by
  have hr := List.getElem?_eq_getElem hi
  have hindex := (h.index_iff _ _).mpr ⟨_, hr, rfl⟩
  simp [startsAfter, hpath, hr, h.position, hindex]

/-- The search finds the last range that starts at or before the position. -/
theorem Indexes.lastNotAbove_startsAfter (h : s.Indexes path) (hpath : s.path = path) (hi : i < path.length)
    (hge : startOf path i ≤ p) (hnext : ∀ j, i < j → j < path.length → p < startOf path j) :
    PartitionPoint.lastNotAbove (s.startsAfter p) path.length 0 (path.length - 1) = some i := by
  refine PartitionPoint.lastNotAbove_eq (by omega) (zero_le _) (by omega) ?_ ?_
  · intro j _ hj
    have hle := (startOf_mono path hj).trans hge
    rw [h.startsAfter_eq hpath (hj.trans_lt hi), decide_eq_false hle.not_gt]
  · intro j hj hlast
    rw [h.startsAfter_eq hpath (by omega), decide_eq_true (hnext j hj (by omega))]

theorem Indexes.getLocation_eq (h : s.Indexes path) (hpath : s.path = path) (hvalid : ValidPath path)
    {r : TrackRange} (hp : p ≤ startOf path path.length) (hr : path[i]? = some r) (hge : startOf path i ≤ p)
    (hnext : ∀ j, i < j → j < path.length → p < startOf path j) :
    p ≤ startOf path (i + 1) ∧ ((startOf path i < p ∨ i = 0) ∧
        s.getLocation p = some (.One (r.at (p - startOf path i))) ∨
      ∃ k r', i = k + 1 ∧ p = startOf path i ∧ path[k]? = some r' ∧
        s.getLocation p = some (.Two (r.at 0) (r'.at r'.extent))) := by
  have hi := (getElem?_eq_some_iff.mp hr).1
  have hordered := (hvalid.ordered r (List.mem_of_getElem? hr)).le
  have hend : p ≤ startOf path (i + 1) := by
    rcases lt_or_ge (i + 1) path.length with hlt | hlast
    · exact (hnext (i + 1) (lt_succ_self i) hlt).le
    · rwa [show i + 1 = path.length by omega]
  have hdistance : p - startOf path i ≤ r.extent := by
    rw [startOf_succ hr] at hend
    omega
  have hsearch := h.lastNotAbove_startsAfter hpath hi hge hnext
  have hindex := (h.index_iff _ _).mpr ⟨r, hr, rfl⟩
  refine ⟨hend, ?_⟩
  rw [getLocation, if_neg (by rw [h.length]; exact hp.not_gt), hpath,
    checkedSub_of_le (by omega : 1 ≤ path.length)]
  have hbegin : s.mapPosition r.trackSection = some (startOf path i) := by
    rw [h.position, hindex, map_some]
  rw [bind_eq_bind, bind_some, hsearch, bind_eq_bind, bind_some, hr,
    bind_eq_bind, bind_some, hbegin, bind_eq_bind, bind_some,
    length_eq hordered, bind_some, checkedSub_of_le hge, bind_some,
    offset_eq hordered hdistance, bind_some]
  simp only [TrackRangeOffset.asTrackOffset_eq hdistance, bind_some]
  -- the range after starts behind the position
  have hlast : ¬ (p - startOf path i = r.extent ∧ i < path.length - 1) := by
    rintro ⟨heq, hlt⟩
    have := hnext (i + 1) (lt_succ_self i) (by omega)
    rw [startOf_succ hr] at this
    omega
  simp only [decide_eq_false hlast, Bool.and_false, Bool.not_false, Bool.and_true,
    Bool.false_eq_true, if_false]
  by_cases hprev : p - startOf path i = 0 ∧ 0 < i
  · right
    obtain ⟨k, rfl⟩ := exists_eq_succ_of_ne_zero hprev.2.ne'
    have hk : k < path.length := by omega
    have hstop := at_extent (hvalid.ordered _ (List.getElem_mem hk)).le
    refine ⟨k, path[k], rfl, by omega, List.getElem?_eq_getElem hk, ?_⟩
    simp only [decide_eq_true hprev, Bool.not_true, Bool.false_eq_true, if_false]
    simp only [hprev.1, hstop, succ_sub_one, List.getElem?_eq_getElem hk, bind_some, pure_def]
  · left
    refine ⟨by omega, ?_⟩
    simp only [decide_eq_false hprev, Bool.not_false, if_true, pure_def]

/-- The ranges that reach a position: the last that starts at or before it, and the one before when the
    position is where it starts. -/
theorem reaches_iff (hvalid : ValidPath path) {r : TrackRange} (hr : path[i]? = some r)
    (hge : startOf path i ≤ p) (hnext : ∀ j, i < j → j < path.length → p < startOf path j) {k : ℕ}
    {r' : TrackRange} (hr' : path[k]? = some r') (hge' : startOf path k ≤ p)
    (hle' : p ≤ startOf path (k + 1)) : k = i ∨ (i = k + 1 ∧ p = startOf path i) := by
  have hk := (getElem?_eq_some_iff.mp hr').1
  have hi := (getElem?_eq_some_iff.mp hr).1
  rcases lt_trichotomy k i with hlt | heq | hgt
  · right
    have hmono := startOf_mono path (show k + 1 ≤ i from hlt)
    rcases lt_or_ge (k + 1) i with hlt' | hle
    · have hnonempty := hvalid.startOf_lt (List.getElem?_eq_getElem (by omega : k + 1 < path.length)) hlt'
      omega
    · exact ⟨by omega, by omega⟩
  · exact .inl heq
  · have := hnext k hgt hk
    omega

/-- `get_location` answers at every position of the path, with the locations whose position it is. -/
theorem Indexes.getLocation_spec (h : s.Indexes path) (hpath : s.path = path) (hvalid : ValidPath path)
    (hne : path ≠ []) {p : ℕ} (hp : p ≤ startOf path path.length) :
    ∃ found, s.getLocation p = some found ∧ ∀ l, l ∈ found.locations ↔ s.getPosition l = some p := by
  obtain ⟨i, r, hr, hge, hnext⟩ := exists_last_start hne p
  obtain ⟨hend, hcases⟩ := h.getLocation_eq hpath hvalid hp hr hge hnext
  simp only [h.getPosition_eq_some_iff hpath hvalid]
  rcases hcases with ⟨hinside, hfound⟩ | ⟨k, r', rfl, rfl, hr', hfound⟩
  · refine ⟨_, hfound, fun l => ?_⟩
    simp only [TrackLocationFromPath.locations, List.mem_singleton]
    refine ⟨fun hl => ⟨i, r, hr, hge, hend, hl⟩, ?_⟩
    rintro ⟨k, r', hr', hge', hle', rfl⟩
    rcases reaches_iff hvalid hr hge hnext hr' hge' hle' with rfl | ⟨rfl, rfl⟩
    · rw [some.inj (hr.symm.trans hr')]
    · omega
  · have hstart := startOf_succ hr'
    refine ⟨_, hfound, fun l => ?_⟩
    simp only [TrackLocationFromPath.locations, List.mem_cons, List.not_mem_nil, or_false]
    constructor
    · rintro (rfl | rfl)
      · exact ⟨k + 1, r, hr, le_rfl, hend, by rw [Nat.sub_self]⟩
      · exact ⟨k, r', hr', by omega, le_rfl, by rw [hstart, Nat.add_sub_cancel_left]⟩
    · rintro ⟨j, r'', hr'', hge', hle', rfl⟩
      rcases reaches_iff hvalid hr hge hnext hr'' hge' hle' with rfl | ⟨hj, -⟩
      · left
        rw [some.inj (hr.symm.trans hr''), Nat.sub_self]
      · right
        obtain rfl : k = j := by omega
        rw [some.inj (hr'.symm.trans hr''), startOf_succ hr'', Nat.add_sub_cancel_left]

end PathProjection

/-- On a path of distinct tracks, `get_location` answers at every position of a path that is not empty, and
    its locations are those whose position it is. -/
theorem getLocation_getPosition {path : List TrackRange} (hvalid : ValidPath path) :
    ∃ s, PathProjection.new path = some s ∧ ∀ p ≤ s.length, (path ≠ [] → (s.getLocation p).isSome) ∧
      ∀ l, (∃ found, s.getLocation p = some found ∧ l ∈ found.locations) ↔ s.getPosition l = some p := by
  obtain ⟨s, hnew, hpath, h⟩ := PathProjection.new_spec hvalid
  refine ⟨s, hnew, fun p hp => ?_⟩
  rw [h.length] at hp
  rcases eq_or_ne path [] with hnil | hne
  · refine ⟨absurd hnil, fun l => ⟨?_, ?_⟩⟩
    · rintro ⟨found, hfound, -⟩
      rw [PathProjection.getLocation, hpath, hnil] at hfound
      split at hfound <;> exact nomatch hfound
    · intro hposition
      obtain ⟨i, r, hr, -⟩ := (h.getPosition_eq_some_iff hpath hvalid l p).mp hposition
      rw [hnil] at hr
      exact nomatch hr
  · obtain ⟨found, hfound, hlocations⟩ := h.getLocation_spec hpath hvalid hne hp
    refine ⟨fun _ => by rw [hfound]; rfl, fun l => ?_⟩
    rw [← hlocations l, hfound]
    constructor
    · rintro ⟨found', hfound', hl⟩
      exact some.inj hfound' ▸ hl
    · exact fun hl => ⟨found, rfl, hl⟩

/-- Along `A`, then against the direction of `B`: the limit between the two. -/
theorem getLocation_getPosition_limit : ∃ s, PathProjection.new
        [⟨"A", 0, 10, .StartToStop⟩, ⟨"B", 0, 5, .StopToStart⟩] = some s ∧
      ∀ l, (∃ found, s.getLocation 10 = some found ∧ l ∈ found.locations) ↔ s.getPosition l = some 10 := by
  have hvalid : ValidPath [⟨"A", 0, 10, .StartToStop⟩, ⟨"B", 0, 5, .StopToStart⟩] := ⟨by decide, by decide⟩
  obtain ⟨s, hnew, h⟩ := getLocation_getPosition hvalid
  have hlength := congrArg (Option.map PathProjection.length) hnew
  have hten : 10 ≤ s.length := by
    rw [← some.inj hlength]
    decide
  exact ⟨s, hnew, (h 10 hten).2⟩

end Osrd.Projection
