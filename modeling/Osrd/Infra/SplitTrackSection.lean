import Mathlib

/-! Model of the two track sections that `split_track_section` builds
    (`editoast/src/views/infra/edition.rs`): their lengths, and what they keep of the slopes, curves and
    loading gauge limits of the track.

    The left half keeps every range that begins up to the split point and the right half every range that
    ends from it on. At each point the halves have the values of the track, but a range that begins or ends
    at the split point is kept by both halves, by one of them as a range without length. -/

namespace Osrd.Infra

open List

/-- A slope, a curve or a loading gauge limit. -/
structure ValueRange (V : Type) where
  value : V
  beginAt : ℚ
  endAt : ℚ

structure TrackSection (LoadingGaugeType : Type) where
  length : ℚ
  slopes : List (ValueRange ℚ)
  curves : List (ValueRange ℚ)
  loadingGaugeLimits : List (ValueRange LoadingGaugeType)

variable {V LoadingGaugeType : Type}

/-! ### The code -/

def leftRanges (distance : ℚ) (ranges : List (ValueRange V)) : List (ValueRange V) :=
  (ranges.filter (·.beginAt ≤ distance)).map fun e =>
    if distance < e.endAt then { e with endAt := distance } else e

def rightRanges (distance : ℚ) (ranges : List (ValueRange V)) : List (ValueRange V) :=
  (ranges.filter (distance ≤ ·.endAt)).map fun e =>
    { e with beginAt := max (e.beginAt - distance) 0, endAt := e.endAt - distance }

/-- The left and the right track section; a distance that is not within the track is refused. -/
def splitTrackSection (track : TrackSection LoadingGaugeType) (distance : ℚ) :
    Option (TrackSection LoadingGaugeType × TrackSection LoadingGaugeType) :=
  if distance ≤ 0 ∨ track.length ≤ distance then none
  else some
    (⟨distance, leftRanges distance track.slopes, leftRanges distance track.curves,
        leftRanges distance track.loadingGaugeLimits⟩,
      ⟨track.length - distance, rightRanges distance track.slopes, rightRanges distance track.curves,
        rightRanges distance track.loadingGaugeLimits⟩)

/-! ### Ranges of the halves -/

/-- A range within a track, with a length. -/
structure ValueRange.Within (length : ℚ) (e : ValueRange V) : Prop where
  begin_nonneg : 0 ≤ e.beginAt
  begin_lt_end : e.beginAt < e.endAt
  end_le : e.endAt ≤ length

/-- The values at a point of the track. -/
def valuesAt (ranges : List (ValueRange V)) (x : ℚ) : List V :=
  (ranges.filter fun e => e.beginAt ≤ x ∧ x ≤ e.endAt).map (·.value)

/-- The ranges of a track are split at a distance: they are ranges of the halves, with the same values. -/
structure SplitsRanges (length distance : ℚ) (ranges left right : List (ValueRange V)) : Prop where
  left_within : ∀ e ∈ left, e.Within distance
  right_within : ∀ e ∈ right, e.Within (length - distance)
  left_values : ∀ x, 0 ≤ x → x ≤ distance → valuesAt left x = valuesAt ranges x
  right_values : ∀ x, 0 ≤ x → x ≤ length - distance → valuesAt right x = valuesAt ranges (distance + x)

variable {ranges : List (ValueRange V)}

/-- A list that is filtered and changed has, at a point, the values of the ranges there that are kept. -/
theorem valuesAt_filter_map {keep : ValueRange V → Bool}
    {change : ValueRange V → ValueRange V} {x y : ℚ} (hvalue : ∀ e, (change e).value = e.value)
    (hcovers : ∀ e, keep e = true ∧ (change e).beginAt ≤ x ∧ x ≤ (change e).endAt ↔
      e.beginAt ≤ y ∧ y ≤ e.endAt) :
    valuesAt ((ranges.filter keep).map change) x = valuesAt ranges y := by
  rw [valuesAt, valuesAt, filter_map, filter_filter, map_map]
  have hfilter : (fun e : ValueRange V =>
      ((fun e => decide (e.beginAt ≤ x ∧ x ≤ e.endAt)) ∘ change) e && keep e) =
        fun e => decide (e.beginAt ≤ y ∧ y ≤ e.endAt) := by
    funext e
    rw [Bool.eq_iff_iff, Bool.and_eq_true, Function.comp_apply, decide_eq_true_iff, decide_eq_true_iff,
      and_comm]
    exact hcovers e
  rw [hfilter]
  exact map_congr_left fun e _ => hvalue e

theorem valuesAt_leftRanges (ranges : List (ValueRange V)) {distance x : ℚ} (hx : x ≤ distance) :
    valuesAt (leftRanges distance ranges) x = valuesAt ranges x := by
  refine valuesAt_filter_map (fun e => by split <;> rfl) fun e => ?_
  split <;> simp <;> grind

theorem valuesAt_rightRanges (ranges : List (ValueRange V)) {distance x : ℚ} (hx : 0 ≤ x) :
    valuesAt (rightRanges distance ranges) x = valuesAt ranges (distance + x) := by
  refine valuesAt_filter_map (fun _ => rfl) fun e => ?_
  grind

/-- The ranges are split exactly when none of them begins or ends at the split point. -/
theorem splitsRanges_iff {length distance : ℚ} (hranges : ∀ e ∈ ranges, e.Within length) :
    SplitsRanges length distance ranges (leftRanges distance ranges) (rightRanges distance ranges) ↔
      ∀ e ∈ ranges, e.beginAt ≠ distance ∧ e.endAt ≠ distance := by
  constructor
  · intro h e he
    obtain ⟨hnonneg, hless, hend⟩ := hranges e he
    constructor
    · intro hbegin
      -- the left half keeps the range as a point
      have hmem : (if distance < e.endAt then { e with endAt := distance } else e) ∈
          leftRanges distance ranges :=
        mem_map.mpr ⟨e, mem_filter.mpr ⟨he, by simp [hbegin]⟩, rfl⟩
      rw [if_pos (hbegin ▸ hless)] at hmem
      exact (h.left_within _ hmem).begin_lt_end.ne hbegin
    · intro hend
      have hmem : { e with beginAt := max (e.beginAt - distance) 0, endAt := e.endAt - distance } ∈
          rightRanges distance ranges :=
        mem_map.mpr ⟨e, mem_filter.mpr ⟨he, by simp [hend]⟩, rfl⟩
      have hright := (h.right_within _ hmem).begin_lt_end
      rw [hend, sub_self] at hright
      exact (le_max_right _ _).not_gt hright
  · intro h
    refine ⟨?_, ?_, fun x _ hx => valuesAt_leftRanges ranges hx,
      fun x hx _ => valuesAt_rightRanges ranges hx⟩
    · intro e he
      obtain ⟨e, hkept, rfl⟩ := mem_map.mp he
      obtain ⟨he, hbegin⟩ := mem_filter.mp hkept
      obtain ⟨hnonneg, hless, hend⟩ := hranges e he
      have hbegin := lt_of_le_of_ne (of_decide_eq_true hbegin) (h e he).1
      split
      · exact ⟨hnonneg, hbegin, le_rfl⟩
      · next hle => exact ⟨hnonneg, hless, not_lt.mp hle⟩
    · intro e he
      obtain ⟨e, hkept, rfl⟩ := mem_map.mp he
      obtain ⟨he, hend⟩ := mem_filter.mp hkept
      obtain ⟨hnonneg, hless, hle⟩ := hranges e he
      have hend := lt_of_le_of_ne (of_decide_eq_true hend) (h e he).2.symm
      exact ⟨le_max_right _ _, max_lt (sub_lt_sub_right hless _) (sub_pos.mpr hend), sub_le_sub_right hle _⟩

/-- No range begins or ends at a point. -/
def NoBoundAt (distance : ℚ) (ranges : List (ValueRange V)) : Prop :=
  ∀ e ∈ ranges, e.beginAt ≠ distance ∧ e.endAt ≠ distance

/-- A track is split into two tracks with its values, whose ranges have a length exactly when no range of the
    track begins or ends at the split point. -/
theorem splitTrackSection_splits_iff {track : TrackSection LoadingGaugeType} {distance : ℚ}
    (hslopes : ∀ e ∈ track.slopes, e.Within track.length)
    (hcurves : ∀ e ∈ track.curves, e.Within track.length)
    (hlimits : ∀ e ∈ track.loadingGaugeLimits, e.Within track.length) (hpos : 0 < distance)
    (hlt : distance < track.length) :
    ∃ left right, splitTrackSection track distance = some (left, right) ∧
      ((SplitsRanges track.length distance track.slopes left.slopes right.slopes ∧
          SplitsRanges track.length distance track.curves left.curves right.curves ∧
          SplitsRanges track.length distance track.loadingGaugeLimits left.loadingGaugeLimits
            right.loadingGaugeLimits) ↔ NoBoundAt distance track.slopes ∧ NoBoundAt distance track.curves ∧
          NoBoundAt distance track.loadingGaugeLimits) := by
  have hrefused : ¬ (distance ≤ 0 ∨ track.length ≤ distance) := not_or.mpr ⟨hpos.not_ge, hlt.not_ge⟩
  refine ⟨_, _, if_neg hrefused, ?_⟩
  rw [splitsRanges_iff hslopes, splitsRanges_iff hcurves, splitsRanges_iff hlimits]
  rfl

/-- A track of ten metres with these slopes. -/
def tenMetres (slopes : List (ValueRange ℚ)) : TrackSection Unit := ⟨10, slopes, [], []⟩

/-- A slope over the split point. -/
theorem splitTrackSection_across : ∃ left right, splitTrackSection (tenMetres [⟨3, 2, 8⟩]) 5 =
    some (left, right) ∧ SplitsRanges 10 5 [⟨3, 2, 8⟩] left.slopes right.slopes := by
  obtain ⟨left, right, hsplit, hiff⟩ := @splitTrackSection_splits_iff Unit (tenMetres [⟨3, 2, 8⟩]) 5
    (by simp [tenMetres]; exact ⟨by norm_num, by norm_num, by norm_num⟩) (by simp [tenMetres])
    (by simp [tenMetres]) (by norm_num) (by norm_num [tenMetres])
  exact ⟨left, right, hsplit, (hiff.mpr ⟨by norm_num [NoBoundAt, tenMetres], nofun, nofun⟩).1⟩

/-- A slope that ends where the track is split: it is in the right half as well, without a length. -/
theorem splitTrackSection_at_end : ∃ left right, splitTrackSection (tenMetres [⟨3, 2, 5⟩]) 5 =
    some (left, right) ∧ (∃ e ∈ right.slopes, e.beginAt = 0 ∧ e.endAt = 0) ∧
    ¬ SplitsRanges 10 5 [⟨3, 2, 5⟩] left.slopes right.slopes := by
  refine ⟨_, _, if_neg (by norm_num [tenMetres]), ⟨⟨3, 0, 0⟩, ?_, rfl, rfl⟩, fun h => ?_⟩
  · norm_num [rightRanges, tenMetres]
  · have hmem : (⟨3, 0, 0⟩ : ValueRange ℚ) ∈ rightRanges 5 [⟨3, 2, 5⟩] := by norm_num [rightRanges]
    exact (h.right_within _ hmem).begin_lt_end.false

end Osrd.Infra
