import Mathlib.Data.List.Induction
import Osrd.IntervalsDataViz.LinearMetadata

/-! The part of the line that is displayed (`getZoomedViewBox` and `transalteViewBox` of
    `front/src/common/IntervalsDataViz/data.ts`), over any zooms and translations from the full view.

    A zoom displays at least `MIN_SIZE_TO_DISPLAY`, also on a line that is shorter. -/

namespace Osrd.IntervalsDataViz

open List

def ZOOM_RATIO : ℚ := 3 / 4

def MIN_SIZE_TO_DISPLAY : ℚ := 10

inductive Zoom
  | IN
  | OUT

variable {T : Type}

section Code

variable (data : List (LinearMetadataItem T)) (currentViewBox : Option (ℚ × ℚ))

/-- `none` is the full view. -/
def getZoomedViewBox (zoom : Zoom) (onPoint : Option ℚ) : Option (ℚ × ℚ) :=
  match data with
  | [] => none
  | first :: _ =>
    let min := first.begin
    let max := lastEnd data
    let viewBox := currentViewBox.getD (min, max)
    let scaled := (viewBox.2 - viewBox.1) * match zoom with
      | .IN => ZOOM_RATIO
      | .OUT => 1 - ZOOM_RATIO + 1
    if max - min ≤ scaled then none
    else
      let distanceToDisplay := if scaled < MIN_SIZE_TO_DISPLAY then MIN_SIZE_TO_DISPLAY else scaled
      -- `onPoint || …`: the point 0 is taken for no point
      let point := (onPoint.filter (· ≠ 0)).getD (viewBox.1 + (viewBox.2 - viewBox.1) / 2)
      let begin := point - distanceToDisplay / 2
      let endAt := point + distanceToDisplay / 2
      if min ≤ begin ∧ endAt ≤ max then some (begin, endAt)
      else if begin < min then some (min, endAt + (min - begin))
      else some (begin - (endAt - max), max)

/-- The full view is not translated. -/
def transalteViewBox (translation : ℚ) : Option (ℚ × ℚ) :=
  match data, currentViewBox with
  | [], _ => none
  | _, none => none
  | data, some viewBox =>
    let max := lastEnd data
    let distanceToDisplay := viewBox.2 - viewBox.1
    if translation < 0 then
      let newMin := if 0 < viewBox.1 + translation then viewBox.1 + translation else 0
      some (newMin, newMin + distanceToDisplay)
    else
      let newMax := if viewBox.2 + translation < max then viewBox.2 + translation else max
      some (newMax - distanceToDisplay, newMax)

end Code

inductive ViewBoxChange
  | zoom (inOrOut : Zoom) (onPoint : Option ℚ)
  | translate (translation : ℚ)

def ViewBoxChange.apply (data : List (LinearMetadataItem T)) (viewBox : Option (ℚ × ℚ)) :
    ViewBoxChange → Option (ℚ × ℚ)
  | .zoom inOrOut onPoint => getZoomedViewBox data viewBox inOrOut onPoint
  | .translate translation => transalteViewBox data viewBox translation

/-- The point of a zoom is on the line. -/
def ViewBoxChange.OnLine (max : ℚ) : ViewBoxChange → Prop
  | .zoom _ onPoint => ∀ p ∈ onPoint, 0 ≤ p ∧ p ≤ max
  | .translate _ => True

/-- The full view, or an interval of positive width on the line. -/
def InView (max : ℚ) (viewBox : Option (ℚ × ℚ)) : Prop :=
  ∀ box ∈ viewBox, 0 ≤ box.1 ∧ box.1 < box.2 ∧ box.2 ≤ max

variable {data : List (LinearMetadataItem T)} {max : ℚ} {viewBox : Option (ℚ × ℚ)}

theorem inView_getZoomedViewBox (h : Tiles 0 data max) (hmax : MIN_SIZE_TO_DISPLAY ≤ max)
    (zoom : Zoom) (onPoint : Option ℚ) : InView max (getZoomedViewBox data viewBox zoom onPoint) := by
  rcases data with _ | ⟨first, rest⟩
  · simp [InView, getZoomedViewBox]
  · obtain ⟨hbegin, -⟩ := id h
    simp only [getZoomedViewBox, hbegin, h.lastEnd_eq (cons_ne_nil _ _), sub_zero]
    generalize (onPoint.filter (· ≠ 0)).getD _ = point
    generalize (_ * _ : ℚ) = scaled
    -- both sizes that can be displayed are positive and fit on the line
    have hpos : (0 : ℚ) < MIN_SIZE_TO_DISPLAY := by norm_num [MIN_SIZE_TO_DISPLAY]
    split_ifs with hfull hsmall hin hbefore hin hbefore
    · simp [InView]
    all_goals
      rintro _ ⟨⟩
      refine ⟨?_, ?_, ?_⟩ <;> linarith

theorem inView_transalteViewBox (h : Tiles 0 data max) (hview : InView max viewBox) (translation : ℚ) :
    InView max (transalteViewBox data viewBox translation) := by
  rcases data with _ | ⟨first, rest⟩
  · simp [InView, transalteViewBox]
  · rcases viewBox with _ | box
    · simp [InView, transalteViewBox]
    · obtain ⟨hmin, hwidth, hmax⟩ := hview box rfl
      simp only [transalteViewBox, h.lastEnd_eq (cons_ne_nil _ _), InView]
      split_ifs <;> rintro _ ⟨⟩ <;> refine ⟨?_, ?_, ?_⟩ <;> linarith

/-- Zooms and translations stay on the line iff it has the length that is always displayed. -/
theorem viewBox_inView_iff (h : Tiles 0 data max) (hpos : 0 < max) :
    (∀ changes : List ViewBoxChange, (∀ change ∈ changes, change.OnLine max) →
        InView max (changes.foldl (fun viewBox change => change.apply data viewBox) none)) ↔
      MIN_SIZE_TO_DISPLAY ≤ max := by
  constructor
  · intro hall
    by_contra hshort
    -- zooming in once displays the minimal size from 0 on
    have hview := hall [.zoom .IN none] (by simp [ViewBoxChange.OnLine])
    rcases data with _ | ⟨first, rest⟩
    · exact hpos.ne h
    · obtain ⟨hbegin, -⟩ := id h
      simp only [MIN_SIZE_TO_DISPLAY, not_le] at hshort
      have hscaled : ¬ max ≤ max * (3 / 4) := by linarith
      have hsmall : max * (3 / 4) < 10 := by linarith
      have hbefore : max / 2 < 10 / 2 := by linarith
      simp [ViewBoxChange.apply, getZoomedViewBox, hbegin, h.lastEnd_eq (cons_ne_nil _ _), ZOOM_RATIO,
        MIN_SIZE_TO_DISPLAY, hscaled, hsmall, hbefore, hbefore.not_ge, InView] at hview
      linarith
  · intro hmax changes _
    induction changes using reverseRecOn with
    | nil => simp [InView]
    | append_singleton changes change ih =>
      rw [foldl_append]
      have hview := ih fun change hmem => by simp_all
      cases change with
      | zoom inOrOut onPoint => exact inView_getZoomedViewBox h hmax inOrOut onPoint
      | translate translation => exact inView_transalteViewBox h hview translation

theorem viewBox_inView_iff_line : MIN_SIZE_TO_DISPLAY ≤ 20 ∧
    ∀ changes : List ViewBoxChange, (∀ change ∈ changes, change.OnLine 20) →
      InView 20 (changes.foldl (fun viewBox change => change.apply [⟨0, 20, "a"⟩] viewBox) none) :=
  have h : MIN_SIZE_TO_DISPLAY ≤ 20 := by norm_num [MIN_SIZE_TO_DISPLAY]
  ⟨h, (viewBox_inView_iff (by norm_num [Tiles]) (by norm_num)).mpr h⟩

/-- On a line of 4, the view after one zoom goes to 10. -/
theorem getZoomedViewBox_short :
    getZoomedViewBox [⟨0, 4, "a"⟩] none .IN none = some (0, 10) ∧ ¬ InView 4 (some (0, 10)) := by
  norm_num [getZoomedViewBox, lastEnd, ZOOM_RATIO, MIN_SIZE_TO_DISPLAY, InView]

end Osrd.IntervalsDataViz
