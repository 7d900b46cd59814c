import Osrd.Projection.ArrivalTimes

/-! The curves that `project_train_path_op` returns (`editoast/src/views/projection.rs`): they have points,
    as many positions as times, and times that do not go back unless the simulation has a sample during a
    stop.

    Between two operational points the loop pushes the stop at the first one, that is its arrival and its
    departure, and then every sample of the simulation from the arrival on. A sample of the stop itself comes
    after the departure then. -/

namespace Osrd.Projection

open List Option Nat
open Prod (snd fst)

namespace SpaceTimeCurve

variable {curve : SpaceTimeCurve} {position time stopFor : ℕ}

/-! ### Pushing points -/

theorem last_eq_some_iff : curve.last = some (position, time) ↔
    curve.positions.getLast? = some position ∧ curve.times.getLast? = some time := by
  simp [last, bind_eq_some_iff]

theorem last_push (positions times : List ℕ) :
    (⟨positions ++ [position], times ++ [time]⟩ : SpaceTimeCurve).last = some (position, time) := by
  simp [last_eq_some_iff]

/-- Times that end at `t` go on with a later one. -/
theorem sorted_push {times : List ℕ} {t : ℕ} (hlast : times.getLast? = some t) :
    (times ++ [time]).Pairwise (· ≤ ·) ↔ times.Pairwise (· ≤ ·) ∧ t ≤ time := by
  obtain ⟨init, rfl⟩ := getLast?_eq_some_iff.mp hlast
  rw [pairwise_append]
  constructor
  · rintro ⟨hsorted, -, hall⟩
    exact ⟨hsorted, hall t (by simp) time (by simp)⟩
  · rintro ⟨hsorted, hle⟩
    refine ⟨hsorted, pairwise_singleton _ _, fun a ha b hb => ?_⟩
    rw [mem_singleton.mp hb]
    rcases mem_append.mp ha with ha | ha
    · exact ((pairwise_append.mp hsorted).2.2 a ha t (by simp)).trans hle
    · exact mem_singleton.mp ha ▸ hle

/-- A curve with as many positions as times. -/
def Even (curve : SpaceTimeCurve) : Prop := curve.positions.length = curve.times.length

def Sorted (curve : SpaceTimeCurve) : Prop := curve.times.Pairwise (· ≤ ·)

theorem Even.cases (h : curve.Even) : curve.times = [] ∨ ∃ p t, curve.last = some (p, t) := by
  rcases eq_or_ne curve.times [] with hnil | hne
  · exact .inl hnil
  · have hpos : curve.positions ≠ [] := fun hnil =>
      hne (eq_nil_of_length_eq_zero (by rw [← h, hnil]; rfl))
    exact .inr ⟨_, _, last_eq_some_iff.mpr
      ⟨getLast?_eq_some_getLast hpos, getLast?_eq_some_getLast hne⟩⟩

theorem even_push (heven : curve.Even) :
    (⟨curve.positions ++ [position], curve.times ++ [time]⟩ : SpaceTimeCurve).Even := by
  simpa [Even] using heven

theorem pushPoint_spec (heven : curve.Even) {p t : ℕ} (hlast : curve.last = some (p, t)) :
    (curve.pushPoint position time).Even ∧
      (curve.pushPoint position time).last = some (position, time) ∧
      ((curve.pushPoint position time).Sorted ↔ curve.Sorted ∧ t ≤ time) := by
  rw [pushPoint]
  split
  · next hsame =>
    cases hlast.symm.trans hsame
    exact ⟨heven, hlast, by simp⟩
  · exact ⟨even_push heven, last_push _ _, sorted_push (last_eq_some_iff.mp hlast).2⟩

/-- Points that are pushed one after the other. -/
theorem pushPoints_spec : ∀ {points : List (ℕ × ℕ)} {curve : SpaceTimeCurve} {p t : ℕ}, curve.Even →
    curve.last = some (p, t) → (points.map snd).Pairwise (· ≤ ·) →
    (points.foldl (fun curve point => curve.pushPoint point.1 point.2) curve).Even ∧
      (∃ p' t', (points.foldl (fun curve point => curve.pushPoint point.1 point.2) curve).last =
        some (p', t') ∧
        (t' = t ∨ t' ∈ points.map snd)) ∧
      ((points.foldl (fun curve point => curve.pushPoint point.1 point.2) curve).Sorted ↔
        curve.Sorted ∧ ∀ t' ∈ points.map snd, t ≤ t')
  | [], curve, p, t, heven, hlast, _ => ⟨heven, ⟨p, t, hlast, .inl rfl⟩, by simp⟩
  | point :: points, curve, p, t, heven, hlast, hsorted => by
    obtain ⟨hfirst, hrest⟩ := pairwise_cons.mp hsorted
    obtain ⟨heven', hlast', hiff'⟩ := @pushPoint_spec curve point.1 point.2 heven p t hlast
    obtain ⟨heven'', ⟨p', t', hend, hmem⟩, hiff⟩ := pushPoints_spec heven' hlast' hrest
    refine ⟨heven'', ⟨p', t', hend, .inr ?_⟩, ?_⟩
    · rcases hmem with rfl | hmem
      · exact mem_cons_self
      · exact mem_cons_of_mem _ hmem
    · rw [foldl_cons, hiff, hiff', map_cons, forall_mem_cons, and_assoc]
      -- the points do not go back, so only the first one counts
      refine and_congr_right fun _ => and_congr_right fun hle => ⟨fun h q hq => hle.trans (h q hq), ?_⟩
      exact fun _ => hfirst

/-- A stop after all points, or where the curve ends already. -/
theorem pushStop_spec (heven : curve.Even)
    (hlast : ∀ p t, curve.last = some (p, t) → t ≤ time ∨ (p = position ∧ t = time + stopFor)) :
    (curve.pushStop position time stopFor).Even ∧
      (curve.pushStop position time stopFor).last = some (position, time + stopFor) ∧
      ((curve.pushStop position time stopFor).Sorted ↔ curve.Sorted) := by
  rw [pushStop]
  split
  · next hsame => exact ⟨heven, hsame, Iff.rfl⟩
  · next hnew =>
    have hsorted : (curve.times ++ [time]).Pairwise (· ≤ ·) ↔ curve.Sorted := by
      rcases heven.cases with hnil | ⟨p, t, hend⟩
      · simp [hnil, Sorted]
      · rcases hlast p t hend with hle | ⟨rfl, rfl⟩
        · exact (sorted_push (last_eq_some_iff.mp hend).2).trans (and_iff_left hle)
        · exact absurd hend hnew
    split
    · next hzero =>
      subst hzero
      exact ⟨even_push heven, last_push _ _, hsorted⟩
    · have hpos : curve.positions ++ [position, position] = curve.positions ++ [position] ++ [position] := by
        simp
      have htimes : curve.times ++ [time, time + stopFor] = curve.times ++ [time] ++ [time + stopFor] := by
        simp
      rw [hpos, htimes]
      refine ⟨even_push (even_push heven), last_push _ _, ?_⟩
      exact (sorted_push (t := time) (by simp)).trans
        ((and_iff_left (le_add_right _ _)).trans hsorted)

end SpaceTimeCurve

/-! ### Samples between two operational points -/

/-- A simulated curve whose positions and times do not go back, from a first to a last time. -/
structure ValidCurve (c : SpaceTimeCurve) (first last : ℕ) : Prop where
  positions : c.positions.Pairwise (· ≤ ·)
  times : c.times.Pairwise (· ≤ ·)
  length : c.positions.length = c.times.length
  first : c.times[0]? = some first
  last : c.times.getLast? = some last

/-- No sample lies in a stop. -/
def NoSampleInStop (c : SpaceTimeCurve) (arrival stopFor : ℕ) : Prop :=
  ∀ t ∈ c.times, ¬ (arrival ≤ t ∧ t < arrival + stopFor)

/-- The fold over the samples, once their positions are interpolated. -/
theorem foldlM_pushPoint {interpolate : ℕ → Option ℕ} : ∀ {samples : List (ℕ × ℕ)} {curve : SpaceTimeCurve},
    (∀ s ∈ samples, (interpolate s.2).isSome) → ∃ points : List (ℕ × ℕ), points.map snd = samples.map fst ∧
      samples.foldlM (fun curve s => do
        let interPos ← interpolate s.2 return curve.pushPoint interPos s.1) curve =
          some (points.foldl (fun curve point => curve.pushPoint point.1 point.2) curve)
  | [], curve, _ => ⟨[], rfl, rfl⟩
  | s :: samples, curve, h => by
    obtain ⟨hs, hrest⟩ := forall_mem_cons.mp h
    obtain ⟨p, hp⟩ := isSome_iff_exists.mp hs
    obtain ⟨points, hpoints, hfold⟩ := @foldlM_pushPoint _ _ (curve.pushPoint p s.1) hrest
    refine ⟨(p, s.1) :: points, by simp [hpoints], ?_⟩
    rw [foldlM_cons, hp]
    exact hfold

variable {c : SpaceTimeCurve} {first last : ℕ}

section ValidCurve

variable (hc : ValidCurve c first last)

include hc

theorem ValidCurve.exists_position {j t : ℕ} (h : c.times[j]? = some t) : ∃ p, c.positions[j]? = some p :=
  ⟨_, List.getElem?_eq_getElem (hc.length.symm ▸ (List.getElem?_eq_some_iff.mp h).1)⟩

/-- The position at a time lies between those of the samples around it. -/
theorem ValidCurve.linearInterpolateTime_spec {time i a : ℕ} (hle : time ≤ last)
    (hi : findIndexUpper c.times time = some i) (hupper : IsUpper c.times time i a) :
    ∃ p, c.linearInterpolateTime .release time = some p ∧ (∀ j q, i ≤ j → c.positions[j]? = some q → p ≤ q) ∧
      ∀ j q, j < i → c.positions[j]? = some q → q ≤ p := by
  obtain ⟨q, hq⟩ := hc.exists_position hupper.at_index
  simp only [SpaceTimeCurve.linearInterpolateTime, SpaceTimeCurve.linearInterpolateCurve,
    if_pos hc.length.symm, hc.last, hi, bind_eq_bind, bind_some, if_neg hle.not_gt]
  cases i with
  | zero =>
    refine ⟨q, head?_eq_getElem?.trans hq, fun j r hj hr => ?_, fun j _ hj => absurd hj (not_lt_zero j)⟩
    exact le_of_pairwise hc.positions hj hq hr
  | succ k =>
    have hlt := (List.getElem?_eq_some_iff.mp hupper.at_index).1
    have ha := List.getElem?_eq_getElem (lt_of_succ_lt hlt)
    obtain ⟨q', hq'⟩ := hc.exists_position ha
    have hbefore := hupper.before k _ (lt_succ_self k) ha
    obtain ⟨p, hcode⟩ := isSome_iff_exists.mp (linearInterpolate_isSome q' q (.inl ⟨hbefore, hupper.le_at⟩))
    obtain ⟨hmin, hmax⟩ := linearInterpolate_between hbefore hupper.le_at hcode
    have hmono := le_of_pairwise hc.positions (le_succ k) hq' hq
    rw [min_eq_left hmono] at hmin
    rw [max_eq_right hmono] at hmax
    refine ⟨p, ?_, fun j r hj hr => ?_, fun j r hj hr => ?_⟩
    · rw [if_neg (succ_ne_zero k), succ_sub_one, interpolateBetween, ha, hupper.at_index, hq', hq]
      exact hcode
    · exact hmax.trans (le_of_pairwise hc.positions hj hq hr)
    · exact (le_of_pairwise hc.positions (le_of_lt_succ hj) hr hq').trans hmin

omit hc in
theorem mem_take_drop_iff {values : List ℕ} {i j v : ℕ} :
    v ∈ (values.take j).drop i ↔ ∃ k, i ≤ k ∧ k < j ∧ values[k]? = some v := by
  simp only [mem_iff_getElem?, getElem?_drop, getElem?_take]
  constructor
  · rintro ⟨m, hm⟩
    obtain ⟨hlt, hv⟩ := ite_none_right_eq_some.mp hm
    exact ⟨i + m, le_add_right _ _, hlt, hv⟩
  · rintro ⟨k, hik, hkj, hv⟩
    exact ⟨k - i, by rw [Nat.add_sub_cancel' hik, if_pos hkj, hv]⟩

/-- Of the samples that are pushed, those of the stop are all there. -/
theorem ValidCurve.forall_pushed_iff {arrival stopFor next i j x y : ℕ} (hnext : arrival + stopFor ≤ next)
    (hij : i ≤ j) (hi : findIndexUpper c.times arrival = some i) (hupper : IsUpper c.times arrival i x)
    (hupper' : IsUpper c.times next j y) :
    (∀ t ∈ (c.times.take j).drop i, arrival + stopFor ≤ t) ↔ NoSampleInStop c arrival stopFor := by
  simp only [mem_take_drop_iff]
  constructor
  · rintro hall t ht ⟨hge, hlt⟩
    obtain ⟨k, hk⟩ := mem_iff_getElem?.mp ht
    have hbefore : ∀ {m v : ℕ}, c.times[m]? = some v → v < arrival + stopFor → m < j := by
      intro m v hm hv
      by_contra hle
      have := le_of_pairwise hc.times (not_lt.mp hle) hupper'.at_index hm
      have := hupper'.le_at
      omega
    rcases lt_or_ge k i with hki | hki
    · -- an arrival before the index is followed by another one at it
      obtain rfl : t = arrival := le_antisymm (hupper.before k t hki hk) hge
      rcases findIndexUpper_cases hi with hat | hnot
      · exact absurd (hall t ⟨i, le_rfl, hbefore hat hlt, hat⟩) (by omega)
      · obtain ⟨m, rfl⟩ := exists_eq_succ_of_ne_zero (ne_zero_of_lt hki)
        have hm := List.getElem?_eq_getElem (lt_of_succ_lt (List.getElem?_eq_some_iff.mp hupper.at_index).1)
        have heq := le_antisymm (hupper.before m _ (lt_succ_self m) hm)
          (le_of_pairwise hc.times (le_of_lt_succ hki) hk hm)
        exact hnot m rfl (heq ▸ hm)
    · exact absurd (hall t ⟨k, hki, hbefore hk hlt, hk⟩) (by omega)
  · rintro hnone t ⟨k, hik, -, hk⟩
    have hge := hupper.le_at.trans (le_of_pairwise hc.times hik hupper.at_index hk)
    exact not_lt.mp fun hlt => hnone t (mem_of_getElem? hk) ⟨hge, hlt⟩

/-- What is pushed between two operational points: samples from the arrival at the first to the arrival at
    the second one. -/
theorem ValidCurve.pushBetween_spec (curve : SpaceTimeCurve) {a b : MatchedOp} (hge : first ≤ a.2.1)
    (hnext : a.2.1 + a.2.2 ≤ b.2.1) (hle : b.2.1 ≤ last) :
    ∃ points : List (ℕ × ℕ), pushBetween .release curve a b (some c) =
        some (points.foldl (fun curve point => curve.pushPoint point.1 point.2) curve) ∧
      (points.map snd).Pairwise (· ≤ ·) ∧ (∀ t ∈ points.map snd, t ≤ b.2.1) ∧
      ((∀ t ∈ points.map snd, a.2.1 + a.2.2 ≤ t) ↔ NoSampleInStop c a.2.1 a.2.2) := by
  obtain ⟨i, x, hi, hupper⟩ := findIndexUpper_spec hc.times hc.first hc.last hge (by omega)
  obtain ⟨j, y, hj, hupper'⟩ :=
    findIndexUpper_spec hc.times hc.first hc.last (show first ≤ b.2.1 by omega) hle
  obtain ⟨start, hstart, hafter, -⟩ := hc.linearInterpolateTime_spec (by omega) hi hupper
  obtain ⟨stop, hstop, -, hbefore⟩ := hc.linearInterpolateTime_spec hle hj hupper'
  have hjlt := (List.getElem?_eq_some_iff.mp hupper'.at_index).1
  have hij : i ≤ j := by
    by_contra hlt
    have hsame : a.2.1 = b.2.1 := by
      have := hupper.before j y (not_le.mp hlt) hupper'.at_index
      have := hupper'.le_at
      omega
    exact hlt (some.inj (hi.symm.trans (hsame ▸ hj))).le
  have hinterpolated : ∀ s ∈ ((c.times.take j).drop i).zip ((c.positions.take j).drop i),
      (linearInterpolate .release start stop a.1 b.1 s.2).isSome := by
    intro s hs
    obtain ⟨k, hik, hkj, hk⟩ := mem_take_drop_iff.mp (of_mem_zip hs).2
    exact linearInterpolate_isSome _ _ (.inl ⟨hafter k _ hik hk, hbefore k _ hkj hk⟩)
  obtain ⟨points, hpoints, hfold⟩ := @foldlM_pushPoint _ _ curve hinterpolated
  rw [map_fst_zip (by simp [hc.length])] at hpoints
  refine ⟨points, ?_, ?_, ?_, ?_⟩
  · simp only [pushBetween, hi, hj, hstart, hstop, slice, bind_eq_bind, bind_some,
      if_pos (show i ≤ j ∧ j ≤ c.times.length from ⟨hij, hjlt.le⟩),
      if_pos (show i ≤ j ∧ j ≤ c.positions.length from ⟨hij, hc.length ▸ hjlt.le⟩)]
    exact hfold
  · rw [hpoints]
    exact (hc.times.sublist (take_sublist j _)).sublist (drop_sublist i _)
  · intro t ht
    rw [hpoints] at ht
    obtain ⟨k, -, hkj, hk⟩ := mem_take_drop_iff.mp ht
    exact hupper'.before k t hkj hk
  · rw [hpoints]
    exact hc.forall_pushed_iff hnext hij hi hupper hupper'

/-! ### The windows -/

/-- When the loop comes to an operational point, the current curve is empty or ends with the stop there. -/
def Ready (current : SpaceTimeCurve) : Option MatchedOp → Prop
  | none => current = .empty
  | some op => current.Even ∧ (current.times = [] ∨ current.last = some (op.1, op.2.1 + op.2.2))

/-- A curve as it is returned. -/
def HasPoints (curve : SpaceTimeCurve) : Prop := curve.Even ∧ curve.times ≠ []

/-- The arrivals are within the simulation, and those that follow respect the stop. -/
def Timed (first last : ℕ) (a b : Option MatchedOp) : Prop :=
  ∀ x ∈ a, ∀ y ∈ b, first ≤ x.2.1 ∧ x.2.1 + x.2.2 ≤ y.2.1 ∧ y.2.1 ≤ last

/-- No sample lies in the stop at the first of two operational points. -/
def Clear (c : SpaceTimeCurve) (a b : Option MatchedOp) : Prop :=
  ∀ x ∈ a, ∀ _y ∈ b, NoSampleInStop c x.2.1 x.2.2

omit hc in
theorem Ready.pushStop {current : SpaceTimeCurve} {op : MatchedOp} (h : Ready current (some op)) :
    (current.pushStop op.1 op.2.1 op.2.2).Even ∧
      (current.pushStop op.1 op.2.1 op.2.2).last = some (op.1, op.2.1 + op.2.2) ∧
      ((current.pushStop op.1 op.2.1 op.2.2).Sorted ↔ current.Sorted) := by
  refine SpaceTimeCurve.pushStop_spec h.1 fun p t hlast => .inr ?_
  rcases h.2 with hnil | hend
  · simp [SpaceTimeCurve.last, hnil] at hlast
  · exact Prod.mk.inj (some.inj (hlast.symm.trans hend))

theorem ValidCurve.projectWindow_spec {closed : List SpaceTimeCurve} {current : SpaceTimeCurve}
    {a b : Option MatchedOp} (hready : Ready current a) (hclosed : ∀ curve ∈ closed, HasPoints curve)
    (htimed : Timed first last a b) :
    ∃ closed' current', projectWindow .release (some c) (closed, current) a b = some (closed', current') ∧
      Ready current' b ∧ (∀ curve ∈ closed', HasPoints curve) ∧
      (((∀ curve ∈ closed', curve.Sorted) ∧ current'.Sorted) ↔
        ((∀ curve ∈ closed, curve.Sorted) ∧ current.Sorted) ∧ Clear c a b) := by
  cases a with
  | none =>
    obtain rfl : current = .empty := hready
    cases b with
    | none => exact ⟨closed, _, rfl, rfl, hclosed, by simp [Clear]⟩
    | some b =>
      have hready' : Ready .empty (some b) := ⟨rfl, .inl rfl⟩
      obtain ⟨heven, hlast, hsorted⟩ := hready'.pushStop
      exact ⟨closed, _, rfl, ⟨heven, .inr hlast⟩, hclosed, by simp [Clear, hsorted]⟩
  | some a =>
    obtain ⟨heven, hlast, hsorted⟩ := hready.pushStop
    cases b with
    | none =>
      refine ⟨_, _, rfl, rfl, ?_, ?_⟩
      · refine forall_mem_append.mpr ⟨hclosed, forall_mem_singleton.mpr ⟨heven, fun hnil => ?_⟩⟩
        simp [SpaceTimeCurve.last, hnil] at hlast
      · rw [forall_mem_append, forall_mem_singleton, hsorted]
        simp [Clear, SpaceTimeCurve.Sorted, SpaceTimeCurve.empty]
    | some b =>
      obtain ⟨hge, hnext, hle⟩ := htimed a rfl b rfl
      obtain ⟨points, hcode, hincreasing, hbefore, hclear⟩ := hc.pushBetween_spec _ hge hnext hle
      obtain ⟨heven', ⟨p, t, hlast', ht⟩, hsorted'⟩ := SpaceTimeCurve.pushPoints_spec heven hlast hincreasing
      have htb : t ≤ b.2.1 := ht.elim (fun h => h ▸ hnext) (hbefore t)
      obtain ⟨heven'', hlast'', hsorted''⟩ := @SpaceTimeCurve.pushStop_spec _ b.1 b.2.1 b.2.2 heven'
        fun p' t' hend => .inl ((Prod.mk.inj (some.inj (hend.symm.trans hlast'))).2 ▸ htb)
      refine ⟨closed, _, by rw [projectWindow, hcode]; rfl, ⟨heven'', .inr hlast''⟩, hclosed, ?_⟩
      rw [hsorted'', hsorted', hsorted, hclear]
      simp [Clear, and_assoc]

/-- The whole loop, up to the point that closes the last curve. -/
theorem ValidCurve.projectWindows_spec : ∀ {ops : List (Option MatchedOp)} {a : Option MatchedOp}
    {closed : List SpaceTimeCurve} {current : SpaceTimeCurve}, (a :: ops).getLast? = some none →
    (a :: ops).IsChain (Timed first last) → Ready current a → (∀ curve ∈ closed, HasPoints curve) →
    ∃ curves, projectWindows .release (some c) (closed, current) (a :: ops) = some curves ∧
      (∀ curve ∈ curves, HasPoints curve) ∧ ((∀ curve ∈ curves, curve.Sorted) ↔
        ((∀ curve ∈ closed, curve.Sorted) ∧ current.Sorted) ∧ (a :: ops).IsChain (Clear c))
  | [], a, closed, current, hend, _, hready, hclosed => by
    obtain rfl : a = none := some.inj hend
    obtain rfl : current = .empty := hready
    exact ⟨closed, rfl, hclosed, by simp [SpaceTimeCurve.Sorted, SpaceTimeCurve.empty]⟩
  | b :: ops, a, closed, current, hend, htimed, hready, hclosed => by
    obtain ⟨hwindow, hrest⟩ := isChain_cons_cons.mp htimed
    obtain ⟨closed', current', hcode, hready', hclosed', hiff⟩ :=
      hc.projectWindow_spec hready hclosed hwindow
    obtain ⟨curves, hcurves, hpoints, hiff'⟩ := ValidCurve.projectWindows_spec
      (by rwa [getLast?_cons_cons] at hend) hrest hready' hclosed'
    refine ⟨curves, by rw [projectWindows, hcode]; exact hcurves, hpoints, ?_⟩
    rw [hiff', hiff, isChain_cons_cons, and_assoc]

end ValidCurve

/-- The curves of a train have points, and as many positions as times. Their times do not go back exactly
    when the simulation has no sample in a stop at an operational point of the projection that another one
    follows. -/
theorem projectTrainPathOp_sorted_iff {c : SpaceTimeCurve} {first last : ℕ} (hc : ValidCurve c first last)
    (refs : List OperationalPointRefAndTime) (opCache : OperationalPointCache)
    (projection : OperationalPointProjection)
    (hwithin : ∀ ref ∈ refs, first ≤ ref.arrivalTime ∧ ref.arrivalTime ≤ last)
    (hstops : refs.IsChain fun ref next => ref.arrivalTime + ref.stopFor ≤ next.arrivalTime) :
    ∃ curves, projectTrainPathOp .release ⟨some c, refs⟩ opCache projection = some curves ∧
      (∀ curve ∈ curves, curve.positions.length = curve.times.length ∧ curve.times ≠ []) ∧
      ((∀ curve ∈ curves, curve.times.Pairwise (· ≤ ·)) ↔
        refs.IsChain fun ref next => (matchOpRefWithOps projection ref.opRef opCache).isSome →
          (matchOpRefWithOps projection next.opRef opCache).isSome →
          NoSampleInStop c ref.arrivalTime ref.stopFor) := by
  let matched := fun ref : OperationalPointRefAndTime =>
    (matchOpRefWithOps projection ref.opRef opCache).map fun pos => (pos, ref.arrivalTime, ref.stopFor)
  have hchain : ∀ {R : Option MatchedOp → Option MatchedOp → Prop}, (∀ a, R a none) →
      ((refs.map matched ++ [none]).IsChain R ↔
        refs.IsChain fun ref next => R (matched ref) (matched next)) := by
    intro R hnone
    rw [isChain_append, isChain_map]
    simp [hnone]
  have htimed : (refs.map matched ++ [none]).IsChain (Timed first last) := by
    rw [hchain fun a _ _ _ hy => nomatch hy]
    refine hstops.imp_of_mem_imp fun ref next href hnext hle => ?_
    intro x hx y hy
    obtain ⟨p, -, rfl⟩ := map_eq_some_iff.mp hx
    obtain ⟨q, -, rfl⟩ := map_eq_some_iff.mp hy
    exact ⟨(hwithin ref href).1, hle, (hwithin next hnext).2⟩
  have hclear : (refs.map matched ++ [none]).IsChain (Clear c) ↔
      refs.IsChain fun ref next => (matchOpRefWithOps projection ref.opRef opCache).isSome →
        (matchOpRefWithOps projection next.opRef opCache).isSome →
        NoSampleInStop c ref.arrivalTime ref.stopFor := by
    rw [hchain fun a _ _ _ hy => nomatch hy]
    refine iff_of_eq (congrArg (List.IsChain · refs) (funext₂ fun ref next => propext ?_))
    simp only [Clear, matched]
    cases matchOpRefWithOps projection ref.opRef opCache <;>
      cases matchOpRefWithOps projection next.opRef opCache <;> simp
  obtain ⟨a, ops, hops⟩ := exists_cons_of_ne_nil (show refs.map matched ++ [none] ≠ [] by simp)
  have hready : Ready .empty a := by
    cases a with
    | none => rfl
    | some a => exact ⟨rfl, .inl rfl⟩
  rw [hops] at htimed hclear
  obtain ⟨curves, hcode, hpoints, hsorted⟩ := @ValidCurve.projectWindows_spec _ _ _ hc ops a [] .empty
    (by rw [← hops]; simp) htimed hready (fun _ h => nomatch h)
  refine ⟨curves, ?_, hpoints, ?_⟩
  · rw [← hcode, ← hops]
    rfl
  · rw [← hclear]
    exact hsorted.trans (and_iff_right ⟨fun _ h => (nomatch h), .nil⟩)

/-- Two operational points at the ends of a projection, the first with a stop. -/
def stopAtA (stopFor : ℕ) : List OperationalPointRefAndTime := [⟨10, stopFor, .Id "A"⟩, ⟨50, 0, .Id "B"⟩]

/-- A simulation without samples in the stop. -/
theorem projectTrainPathOp_sorted_through_stop : ∃ curves,
    projectTrainPathOp .release ⟨some ⟨[0, 5, 100], [0, 30, 60]⟩, stopAtA 20⟩ emptyCache fromAToB =
      some curves ∧
      ∀ curve ∈ curves, curve.times.Pairwise (· ≤ ·) := by
  have hc : ValidCurve ⟨[0, 5, 100], [0, 30, 60]⟩ 0 60 := ⟨by decide, by decide, rfl, rfl, rfl⟩
  obtain ⟨curves, hcode, -, hiff⟩ := projectTrainPathOp_sorted_iff hc (stopAtA 20) emptyCache fromAToB
    (by simp [stopAtA]) (by simp [stopAtA])
  refine ⟨curves, hcode, hiff.mpr ?_⟩
  simp [stopAtA, NoSampleInStop]

/-- The simulation stops as it is asked to, with a sample at the arrival and one at the departure: the time
    of the first one comes after the departure. -/
theorem projectTrainPathOp_back_in_time : ∃ curve,
    projectTrainPathOp .release ⟨some ⟨[0, 0, 100], [10, 30, 50]⟩, stopAtA 20⟩ emptyCache fromAToB =
      some [curve] ∧
      curve.times = [10, 30, 10, 30, 50] ∧ ¬ curve.times.Pairwise (· ≤ ·) :=
  ⟨⟨[0, 0, 0, 0, 100], [10, 30, 10, 30, 50]⟩, rfl, rfl, by decide⟩

end Osrd.Projection
