import Osrd.Stdcm.BlockAvailability

/-! What `getStepAvailability` answers, in terms of the delays at which each planned step is respected.

    The loop keeps the largest delay an early step needs and the smallest delay the respected steps bear.
    An early step that needs no more than one met before falls into the branch of the respected steps,
    with a room of 0: the windows of the early steps have to come in increasing order. -/

namespace Osrd.Stdcm.BlockAvailability

open LeastFree List
open WithTop hiding some

/-! ### Delay windows -/

/-- The delays at which a planned step is passed inside its widened window: an early step has a
    positive `lo`, a late one a negative `hi`. -/
structure DelayWindow where
  lo : ℚ
  hi : ℚ

section Windows

/-- The delays inside every window. -/
def insideAll (windows : List DelayWindow) : Set ℚ := {d | ∀ w ∈ windows, w.lo ≤ d ∧ d ≤ w.hi}

/-- Each early window needs more delay than all those before it. -/
def EarlyIncreasing (windows : List DelayWindow) : Prop :=
  windows.Pairwise fun w w' => 0 < w'.lo → w.lo < w'.lo

/-- The window seen after a delay. -/
def DelayWindow.shift (s : ℚ) (w : DelayWindow) : DelayWindow := ⟨w.lo - s, w.hi - s⟩

/-- What the loop over the steps knows after the windows `ws`: `e` is the delay that makes none of them
    early, and `m` the delay the others bear, unless two early windows came in the wrong order. -/
structure Gathered (ws : List DelayWindow) (e : ℚ) (m : WithTop ℚ) : Prop where
  nonneg : 0 ≤ e
  onTime : ∀ w ∈ ws, w.lo ≤ e
  needed : e = 0 ∨ ∃ w ∈ ws, w.lo = e
  room : EarlyIncreasing ws → ∀ x : ℚ, 0 ≤ x → (x ≤ m ↔ ∀ w ∈ ws, w.lo ≤ 0 → x ≤ w.hi)
  blocked : ¬ EarlyIncreasing ws → 0 < e ∧ m ≤ 0

variable {ws : List DelayWindow} {w : DelayWindow} {e : ℚ} {m : WithTop ℚ}

theorem Gathered.nil : Gathered [] 0 ⊤ where
  nonneg := le_rfl
  onTime := by simp
  needed := .inl rfl
  room := by simp
  blocked := fun h => absurd .nil h

theorem earlyIncreasing_concat :
    EarlyIncreasing (ws ++ [w]) ↔ EarlyIncreasing ws ∧ ∀ v ∈ ws, 0 < w.lo → v.lo < w.lo := by
  simp [EarlyIncreasing, pairwise_append]

theorem earlyIncreasing_of_onTime (h : ∀ w ∈ ws, w.lo ≤ 0) : EarlyIncreasing ws :=
  pairwise_iff_forall_sublist.mpr fun hsub hpos =>
    absurd hpos (not_lt.mpr (h _ (hsub.subset (by simp))))

/-- An early window that needs more than all before. -/
theorem Gathered.record (h : Gathered ws e m) (hw : e < w.lo) : Gathered (ws ++ [w]) w.lo m := by
  have hinc : EarlyIncreasing (ws ++ [w]) ↔ EarlyIncreasing ws := by
    rw [earlyIncreasing_concat, and_iff_left]
    exact fun v hv _ => (h.onTime v hv).trans_lt hw
  have hpos : 0 < w.lo := h.nonneg.trans_lt hw
  refine ⟨hpos.le, ?_, .inr ⟨w, by simp, rfl⟩, fun hws x hx => ?_, fun hws => ?_⟩
  · simp only [forall_mem_append, forall_mem_singleton]
    exact ⟨fun v hv => (h.onTime v hv).trans hw.le, le_rfl⟩
  · rw [h.room (hinc.mp hws) x hx, forall_mem_append, forall_mem_singleton]
    exact (and_iff_left fun hlo => absurd hlo hpos.not_ge).symm
  · exact ⟨hpos, (h.blocked (hws ∘ hinc.mpr)).2⟩

/-- An early window that needs no more than one before. -/
theorem Gathered.disorder (h : Gathered ws e m) (hpos : 0 < w.lo) (hw : w.lo ≤ e)
    {m' : WithTop ℚ} (hm' : m' ≤ 0) : Gathered (ws ++ [w]) e m' := by
  have hepos : 0 < e := hpos.trans_le hw
  obtain ⟨v, hv, hve⟩ : ∃ v ∈ ws, v.lo = e := h.needed.resolve_left hepos.ne'
  have hnot : ¬ EarlyIncreasing (ws ++ [w]) := by
    rw [earlyIncreasing_concat]
    rintro ⟨-, hall⟩
    exact absurd (hall v hv hpos) (hw.trans hve.ge).not_gt
  refine ⟨h.nonneg, ?_, .inr ⟨v, mem_append_left _ hv, hve⟩, fun hws => absurd hws hnot,
    fun _ => ⟨hepos, hm'⟩⟩
  simp only [forall_mem_append, forall_mem_singleton]
  exact ⟨h.onTime, hw⟩

/-- A window that is not early bounds the room. -/
theorem Gathered.respected (h : Gathered ws e m) (hw : w.lo ≤ 0) :
    Gathered (ws ++ [w]) e (min m w.hi) := by
  have hinc : EarlyIncreasing (ws ++ [w]) ↔ EarlyIncreasing ws := by
    rw [earlyIncreasing_concat, and_iff_left]
    exact fun v _ hpos => absurd hpos hw.not_gt
  refine ⟨h.nonneg, ?_, ?_, fun hws x hx => ?_, fun hws => ?_⟩
  · simp only [forall_mem_append, forall_mem_singleton]
    exact ⟨h.onTime, hw.trans h.nonneg⟩
  · exact h.needed.imp_right fun ⟨v, hv, hve⟩ => ⟨v, mem_append_left _ hv, hve⟩
  · rw [le_min_iff, h.room (hinc.mp hws) x hx, coe_le_coe, forall_mem_append,
      forall_mem_singleton, forall_prop_of_true hw]
  · obtain ⟨hepos, hm⟩ := h.blocked (hws ∘ hinc.mpr)
    exact ⟨hepos, (min_le_left _ _).trans hm⟩

theorem mem_insideAll_shift {s d : ℚ} :
    d ∈ insideAll (ws.map (DelayWindow.shift s)) ↔ s + d ∈ insideAll ws := by
  simp only [insideAll, DelayWindow.shift, forall_mem_map]
  refine forall₂_congr fun w _ => ?_
  rw [sub_le_iff_le_add', le_sub_iff_add_le']

end Windows

/-! ### Planned steps -/

section Steps

variable (b : BlockAvailability) (infraExplorer : InfraExplorerWithEnvelope)
  (startOffset endOffset : Offset) (pathStartTime : ℚ)

def stepWindow (step : LocatedStep) : Option DelayWindow :=
  (checkedTimingData infraExplorer startOffset endOffset step).map fun plannedTimingData =>
    let timeAtStep := infraExplorer.interpolateDepartureFromClamp step.travelledPathOffset + pathStartTime
    ⟨b.plannedMinTimeAtStep plannedTimingData - timeAtStep,
      b.plannedMaxTimeAtStep plannedTimingData - timeAtStep⟩

/-- The windows of the checked steps, in the order of the loop. -/
def stepWindows : List DelayWindow :=
  infraExplorer.seenSteps.reverse.filterMap
    (b.stepWindow infraExplorer startOffset endOffset pathStartTime)

variable {b infraExplorer startOffset endOffset}

theorem stepWindows_add (pathStartTime s : ℚ) :
    b.stepWindows infraExplorer startOffset endOffset (pathStartTime + s) =
      (b.stepWindows infraExplorer startOffset endOffset pathStartTime).map (DelayWindow.shift s) := by
  rw [stepWindows, stepWindows, map_filterMap]
  congr 1
  funext step
  simp only [stepWindow, Option.map_map]
  congr 1
  funext plannedTimingData
  simp only [Function.comp, DelayWindow.shift, DelayWindow.mk.injEq]
  constructor <;> ring

/-- The properties of a step, from its window. -/
theorem getStepAvailabilityProperties_cases (step : LocatedStep) :
    (b.stepWindow infraExplorer startOffset endOffset pathStartTime step = none ∧
      b.getStepAvailabilityProperties infraExplorer startOffset endOffset pathStartTime step = none) ∨
    ∃ w o p, b.stepWindow infraExplorer startOffset endOffset pathStartTime step = some w ∧
      b.getStepAvailabilityProperties infraExplorer startOffset endOffset pathStartTime step = some p ∧
      ((0 < w.lo ∧ p = ⟨w.lo, o, 0, 0⟩) ∨ (w.hi < 0 ∧ p = ⟨⊤, o, 0, 0⟩) ∨
        (w.lo ≤ 0 ∧ 0 ≤ w.hi ∧ ∃ t, p = ⟨0, 0, w.hi, t⟩)) := by
  cases hdata : checkedTimingData infraExplorer startOffset endOffset step with
  | none => simp [stepWindow, getStepAvailabilityProperties, hdata]
  | some plannedTimingData =>
    refine .inr ⟨_, step.travelledPathOffset, _, by rw [stepWindow, hdata]; rfl,
      by rw [getStepAvailabilityProperties, hdata]; rfl, ?_⟩
    dsimp only
    split
    · next hearly =>
      rw [← sub_pos] at hearly
      rw [max_eq_left hearly.le]
      exact .inl ⟨hearly, rfl⟩
    · next hearly =>
      split
      · next hlate => exact .inr (.inl ⟨sub_neg.mpr hlate, rfl⟩)
      · next hlate => exact .inr (.inr
          ⟨sub_nonpos.mpr (not_lt.mp hearly), sub_nonneg.mpr (not_lt.mp hlate), _, rfl⟩)

/-- How the loop over the steps ends: at a late window, or with all the windows gathered. -/
def Ends (ws : List DelayWindow) (result : Except Availability AvailabilityProperties) : Prop :=
  (∃ o, result = .error (.Unavailable ⊤ o none) ∧ ∃ w ∈ ws, w.hi < 0) ∨
  ∃ (e : ℚ) (o : Offset) (m t : WithTop ℚ), result = .ok ⟨e, o, m, t⟩ ∧ Gathered ws e m ∧
    ∀ w ∈ ws, w.lo ≤ 0 → 0 ≤ w.hi

theorem stepLoop_ends {pathStartTime : ℚ} : ∀ {steps : List LocatedStep} {ws : List DelayWindow}
    {e : ℚ} {o : Offset} {m t : WithTop ℚ}, Gathered ws e m → (∀ w ∈ ws, w.lo ≤ 0 → 0 ≤ w.hi) →
    Ends (ws ++ steps.filterMap (b.stepWindow infraExplorer startOffset endOffset pathStartTime))
      (stepLoop (b.getStepAvailabilityProperties infraExplorer startOffset endOffset pathStartTime)
        steps ⟨e, o, m, t⟩)
  | [], ws, e, o, m, t, h, hlate => .inr ⟨e, o, m, t, rfl, by simpa using h, by simpa using hlate⟩
  | step :: steps, ws, e, o, m, t, h, hlate => by
    rcases @getStepAvailabilityProperties_cases b infraExplorer startOffset endOffset pathStartTime
      step with ⟨hw, hp⟩ | ⟨w, o', p, hw, hp, hcases⟩
    · simp only [stepLoop, hp, filterMap_cons, hw]
      exact stepLoop_ends h hlate
    simp only [stepLoop, hp, filterMap_cons, hw]
    have hlate' : (w.lo ≤ 0 → 0 ≤ w.hi) → ∀ v ∈ ws ++ [w], v.lo ≤ 0 → 0 ≤ v.hi := by
      intro hwhi
      simp only [forall_mem_append, forall_mem_singleton]
      exact ⟨hlate, hwhi⟩
    rcases hcases with ⟨hearly, rfl⟩ | ⟨hneg, rfl⟩ | ⟨hlo, hhi, t', rfl⟩
    · -- an early step: the running maximum grows, or the room is lost
      have hnotLate := hlate' fun hlo => absurd hlo hearly.not_ge
      rw [if_neg coe_ne_top, append_cons]
      split
      · next hrecord => exact stepLoop_ends (h.record (coe_lt_coe.mp hrecord)) hnotLate
      · next hrecord =>
        have hle : w.lo ≤ e := not_lt.mp fun hlt => hrecord (coe_lt_coe.mpr hlt)
        split
        · exact stepLoop_ends (h.disorder hearly hle le_rfl) hnotLate
        · next hm => exact stepLoop_ends (h.disorder hearly hle (not_lt.mp hm)) hnotLate
    · exact .inl ⟨o', rfl, w, by simp, hneg⟩
    · -- a respected step
      have hmin := h.respected hlo
      rw [if_neg zero_ne_top, if_neg, append_cons]
      · split
        · next hm => exact stepLoop_ends (min_eq_right hm.le ▸ hmin) (hlate' fun _ => hhi)
        · next hm => exact stepLoop_ends (min_eq_left (not_lt.mp hm) ▸ hmin) (hlate' fun _ => hhi)
      · exact (coe_nonneg.mpr h.nonneg).not_gt

/-- The answer for the steps, from their windows. -/
inductive StepAnswer (ws : List DelayWindow) : Availability → Prop
  | respected (m t : WithTop ℚ) : FreeUntil (insideAll ws) 0 m → StepAnswer ws (.Available m t)
  | early (e : ℚ) (o : Offset) : EarlyIncreasing ws → 0 < e → (∃ w ∈ ws, w.lo = e) →
      (∀ w ∈ ws, w.lo ≤ e) → StepAnswer ws (.Unavailable e o none)
  | never (o : Offset) : (EarlyIncreasing ws → ∀ x : ℚ, 0 ≤ x → x ∉ insideAll ws) →
      StepAnswer ws (.Unavailable ⊤ o none)

theorem getStepAvailability_answer :
    StepAnswer (b.stepWindows infraExplorer startOffset endOffset pathStartTime)
      (b.getStepAvailability infraExplorer startOffset endOffset pathStartTime) := by
  have hends : Ends (b.stepWindows infraExplorer startOffset endOffset pathStartTime) _ :=
    @stepLoop_ends b infraExplorer startOffset endOffset pathStartTime
      infraExplorer.seenSteps.reverse [] 0 (2 ^ 63 - 1) ⊤ ⊤ Gathered.nil (by simp)
  rw [getStepAvailability, initialProperties]
  generalize b.stepWindows infraExplorer startOffset endOffset pathStartTime = ws at hends ⊢
  rcases hends with ⟨o, hresult, w, hw, hlate⟩ | ⟨e, o, m, t, hresult, h, hlate⟩
  · rw [coe_zero] at hresult
    rw [hresult]
    exact .never o fun _ x hx hin => absurd (hx.trans (hin w hw).2) hlate.not_ge
  rw [coe_zero] at hresult
  rw [hresult]
  dsimp only
  split
  · next hpos =>
    rw [coe_pos] at hpos
    obtain ⟨w, hw, hwe⟩ := h.needed.resolve_left hpos.ne'
    split
    · next hm =>
      refine .never o fun hinc x hx hin => absurd hm (not_lt.mpr ?_)
      rw [h.room hinc e h.nonneg]
      exact fun v hv _ => (hwe ▸ (hin w hw).1).trans (hin v hv).2
    · next hm =>
      refine .early e o (Classical.not_not.mp fun hinc => hm ?_) hpos ⟨w, hw, hwe⟩ h.onTime
      exact (h.blocked hinc).2.trans_lt (coe_pos.mpr hpos)
  · next hpos =>
    have he : e = 0 := le_antisymm (not_lt.mp fun h => hpos (coe_pos.mpr h)) h.nonneg
    have honTime : ∀ w ∈ ws, w.lo ≤ 0 := he ▸ h.onTime
    have hinc := earlyIncreasing_of_onTime honTime
    refine .respected m t ⟨(h.room hinc 0 le_rfl).mpr hlate, fun x hx => ?_⟩
    rw [h.room hinc x hx]
    exact ⟨fun hin w hw _ => (hin x hx le_rfl w hw).2, fun hroom y hy hyx w hw =>
      ⟨(honTime w hw).trans hy, hyx.trans (hroom w hw (honTime w hw))⟩⟩

end Steps

end Osrd.Stdcm.BlockAvailability
