import Osrd.Stdcm.StepWindows

/-! `getAvailability` and the delays at which the section can be used. -/

namespace Osrd.Stdcm.BlockAvailability

open Conflicts LeastFree DelayWindow List
open WithTop (coe_lt_coe coe_add coe_ne_top coe_le_coe)

/-! ### Conflicts -/

section Conflicts

/-- The requirement after a delay. -/
def shiftRequirement (s : ℚ) (r : SpacingRequirement ℚ) : SpacingRequirement ℚ :=
  { r with beginTime := s + r.beginTime, endTime := s + r.endTime }

theorem overlaps_shiftRequirement {r : SpacingRequirement ℚ} {s d : ℚ} {use : TimeRange ℚ} :
    Overlaps (shiftRequirement s r) d use ↔ Overlaps r (s + d) use := by
  have hbegin : d + (s + r.beginTime) = s + d + r.beginTime := by ring
  have hend : (d : WithTop ℚ) + (s + r.endTime) = ((s + d : ℚ) : WithTop ℚ) + r.endTime := by
    rw [← add_assoc, coe_add, add_comm (d : WithTop ℚ)]
  simp only [Overlaps, shiftRequirement, hbegin, hend]

theorem conflictFree_shift {spacingZoneUses : ParsedRequirements ℚ}
    {rs : List (SpacingRequirement ℚ)} {s : ℚ} :
    ConflictFree spacingZoneUses (rs.map (shiftRequirement s)) =
      {d | s + d ∈ ConflictFree spacingZoneUses rs} := by
  ext d
  simp only [ConflictFree, forall_mem_map, overlaps_shiftRequirement]
  rfl

theorem clipRequirement_shift (pathStartTime minRelevantTime endTime s : ℚ) :
    clipRequirement (pathStartTime + s) (minRelevantTime + s) (endTime + s) =
      shiftRequirement s ∘ clipRequirement pathStartTime minRelevantTime endTime := by
  funext r
  have hbegin : max (pathStartTime + s + r.beginTime) (minRelevantTime + s) =
      s + max (pathStartTime + r.beginTime) minRelevantTime := by
    rw [← max_add_add_left, add_right_comm, add_comm s, add_comm s]
  have hend : min (((pathStartTime + s : ℚ) : WithTop ℚ) + r.endTime) ((endTime + s : ℚ) : WithTop ℚ) =
      (s : WithTop ℚ) + min ((pathStartTime : WithTop ℚ) + r.endTime) endTime := by
    rw [← min_add_add_left, coe_add, coe_add, add_right_comm,
      add_comm (s : WithTop ℚ), add_comm (s : WithTop ℚ)]
  simp only [Function.comp, clipRequirement, shiftRequirement, hbegin, hend]

variable {b : BlockAvailability} {explorer : InfraExplorerWithEnvelope} {startOffset endOffset : Offset}

theorem shiftedSpacingRequirements_add (pathStartTime startTime endTime s : ℚ) :
    shiftedSpacingRequirements explorer startOffset (pathStartTime + s) (startTime + s) (endTime + s) =
      (shiftedSpacingRequirements explorer startOffset pathStartTime startTime endTime).map
        (shiftRequirement s) := by
  have hmin : ∀ m : ℚ, (if startsAtStop explorer startOffset then startTime + s - m
      else startTime + s) =
      (if startsAtStop explorer startOffset then startTime - m else startTime) + s := by
    intro m
    split
    · ring
    · rfl
  have hnonempty : (fun r : SpacingRequirement ℚ => decide ((r.beginTime : WithTop ℚ) < r.endTime)) ∘
      shiftRequirement s = fun r => decide ((r.beginTime : WithTop ℚ) < r.endTime) := by
    funext r
    simp only [Function.comp, shiftRequirement, coe_add, WithTop.add_lt_add_iff_left coe_ne_top]
  simp only [shiftedSpacingRequirements, hmin, clipRequirement_shift]
  rw [← map_map, filter_map, hnonempty]

/-- The answer for the conflicts, from the conflict-free delays. -/
inductive ConflictAnswer (free : Set ℚ) : Availability → Prop
  | noConflict (m t : WithTop ℚ) : FreeUntil free 0 m → ConflictAnswer free (.Available m t)
  | conflict (r : WithTop ℚ) (o : Offset) (c : Option String) : 0 < r → FirstFree free (0 : ℚ) r →
      ConflictAnswer free (.Unavailable r o c)

theorem getConflictAvailability_answer (hsteps : explorer.seenSteps ≠ [])
    (pathStartTime startTime endTime : ℚ) :
    ∃ a, b.getConflictAvailability explorer startOffset pathStartTime startTime endTime = some a ∧
      ConflictAnswer (ConflictFree b.spacingZoneUses (shiftedSpacingRequirements explorer
        startOffset pathStartTime startTime endTime)) a := by
  have hlt : ∀ r ∈ shiftedSpacingRequirements explorer startOffset pathStartTime startTime
      endTime, (r.beginTime : WithTop ℚ) < r.endTime := fun r hr => by
    simpa using (mem_filter.mp hr).2
  have hempty : explorer.seenSteps.isEmpty = false := by simpa using hsteps
  rw [getConflictAvailability, hempty, if_neg Bool.false_ne_true]
  rcases @analyseConflicts_cases ℚ _ _ _ b.spacingZoneUses _ hlt with
    ⟨m, t, hresponse, -, huntil⟩ | ⟨r, time, zone, hresponse, hne, hfirst⟩
  · rw [hresponse]
    exact ⟨_, rfl, .noConflict m t huntil⟩
  · rw [hresponse]
    exact ⟨_, rfl, .conflict r _ _ (lt_of_le_of_ne hfirst.le hne.symm) hfirst⟩

end Conflicts

/-! ### Both together -/

section Answer

variable {ws : List DelayWindow} {free : Set ℚ}

/-- The answer for the section entered at some time, from the windows of the steps and the
    conflict-free delays. -/
inductive SectionAnswer (ws : List DelayWindow) (free : Set ℚ) : Availability → Prop
  | available (m t : WithTop ℚ) : FreeUntil (insideAll ws ∩ free) 0 m →
      SectionAnswer ws free (.Available m t)
  | wait (r : ℚ) (o : Offset) (c : Option String) : EarlyIncreasing ws → 0 < r →
      Skips (insideAll ws ∩ free) (0 : ℚ) r → (∀ w ∈ ws, w.lo ≤ r) →
      ((∀ w ∈ ws, w.lo ≤ 0) → 0 ∉ free ∧ r ∈ free) → SectionAnswer ws free (.Unavailable r o c)
  | never (o : Offset) (c : Option String) :
      (EarlyIncreasing ws → ∀ x : ℚ, 0 ≤ x → x ∉ insideAll ws ∩ free) →
      SectionAnswer ws free (.Unavailable ⊤ o c)

theorem skips_of_early {e : ℚ} (hneeded : ∃ w ∈ ws, w.lo = e) :
    Skips (insideAll ws ∩ free) (0 : ℚ) e := by
  obtain ⟨w, hw, rfl⟩ := hneeded
  exact fun x _ hx hin => absurd (hin.1 w hw).1 (coe_lt_coe.mp hx).not_ge

theorem StepAnswer.mostRestrictive {a a' : Availability} (hstep : StepAnswer ws a)
    (hconflict : ConflictAnswer free a') :
    SectionAnswer ws free (getMostRestrictiveAvailability a a') := by
  cases hstep with
  | respected m t huntil =>
    cases hconflict with
    | noConflict m' t' huntil' =>
      have hboth := huntil.inter huntil'
      rw [getMostRestrictiveAvailability]
      split
      · next hle => exact .available m t (min_eq_left (WithBot.coe_le_coe.mp hle) ▸ hboth)
      · next hle =>
        have hle' : m' ≤ m := (not_le.mp fun h => hle (WithBot.coe_le_coe.mpr h)).le
        exact .available m' t' (min_eq_right hle' ▸ hboth)
    | conflict r o c hpos hfirst =>
      have honTime : ∀ w ∈ ws, w.lo ≤ 0 := fun w hw => (huntil.mem w hw).1
      cases r with
      | top => exact .never o c fun _ x hx hin => hfirst.empty x hx hin.2
      | coe r =>
        have hr : 0 < r := WithTop.coe_pos.mp hpos
        refine .wait r o c (earlyIncreasing_of_onTime honTime) hr
          (fun x hx hxr hin => hfirst.skips x hx hxr hin.2)
          (fun w hw => (honTime w hw).trans hr.le) fun _ => ⟨?_, hfirst.free r rfl⟩
        exact hfirst.skips 0 le_rfl hpos
  | early e o hinc hpos hneeded honTime =>
    have hnotOnTime : ¬ ∀ w ∈ ws, w.lo ≤ 0 := by
      obtain ⟨w, hw, rfl⟩ := hneeded
      exact fun h => absurd hpos (h w hw).not_gt
    have hwait : SectionAnswer ws free (.Unavailable e o none) :=
      .wait e o none hinc hpos (skips_of_early hneeded) honTime fun h => absurd h hnotOnTime
    cases hconflict with
    | noConflict m' t' huntil => exact hwait
    | conflict r o' c hpos' hfirst =>
      rw [getMostRestrictiveAvailability]
      split
      · exact hwait
      · next hle =>
        cases r with
        | top => exact .never o' c fun _ x hx hin => hfirst.empty x hx hin.2
        | coe r =>
          have her : e < r := coe_lt_coe.mp (not_le.mp hle)
          exact .wait r o' c hinc (hpos.trans her) (fun x hx hxr hin => hfirst.skips x hx hxr hin.2)
            (fun w hw => (honTime w hw).trans her.le) fun h => absurd h hnotOnTime
  | never o hnever =>
    have hnone : SectionAnswer ws free (.Unavailable ⊤ o none) :=
      .never o none fun hinc x hx hin => hnever hinc x hx hin.1
    cases hconflict with
    | noConflict m' t' huntil => exact hnone
    | conflict r o' c hpos hfirst =>
      exact hnone

end Answer

/-! ### The loop over the delays -/

section Loop

variable (b : BlockAvailability) (explorer : InfraExplorerWithEnvelope)
  (startOffset endOffset : Offset) (startTime : ℚ)

/-- The windows of the planned steps of the section, entered at `startTime`. -/
def windowsAt : List DelayWindow :=
  b.stepWindows explorer startOffset endOffset
    (pathStartTime explorer startOffset startTime)

/-- The clipped requirements of the section, entered at `startTime`. -/
def requirementsAt : List (SpacingRequirement ℚ) :=
  shiftedSpacingRequirements explorer startOffset
    (pathStartTime explorer startOffset startTime) startTime
    (endTime explorer startOffset endOffset startTime)

/-- The delays after which every planned step of the section is passed inside its widened window and
    no clipped requirement overlaps a use of its zone. -/
def acceptableDelays : Set ℚ :=
  {d | 0 ≤ d ∧
    (∀ step ∈ explorer.seenSteps, ∀ plannedTimingData,
      checkedTimingData explorer startOffset endOffset step = some plannedTimingData →
      explorer.interpolateDepartureFromClamp step.travelledPathOffset +
          pathStartTime explorer startOffset (startTime + d) ∈
        Set.Icc (b.plannedMinTimeAtStep plannedTimingData)
          (b.plannedMaxTimeAtStep plannedTimingData)) ∧
    ∀ requirement ∈ requirementsAt explorer startOffset endOffset (startTime + d),
      ∀ use ∈ usesOf b.spacingZoneUses requirement, ¬ Overlaps requirement 0 use}

variable {b explorer startOffset endOffset startTime}

theorem pathStartTime_add (s : ℚ) : pathStartTime explorer startOffset (startTime + s) =
      pathStartTime explorer startOffset startTime + s := by
  simp only [pathStartTime]
  ring

theorem windowsAt_add (s : ℚ) : b.windowsAt explorer startOffset endOffset (startTime + s) =
      (b.windowsAt explorer startOffset endOffset startTime).map (shift s) := by
  rw [windowsAt, pathStartTime_add, stepWindows_add, windowsAt]

theorem requirementsAt_add (s : ℚ) : requirementsAt explorer startOffset endOffset (startTime + s) =
      (requirementsAt explorer startOffset endOffset startTime).map (shiftRequirement s) := by
  rw [requirementsAt, endTime, pathStartTime_add, ← add_assoc, shiftedSpacingRequirements_add]
  rfl

theorem mem_insideAll_windowsAt {d : ℚ} :
    d ∈ insideAll (b.windowsAt explorer startOffset endOffset startTime) ↔
      ∀ step ∈ explorer.seenSteps, ∀ plannedTimingData,
        checkedTimingData explorer startOffset endOffset step = some plannedTimingData →
        explorer.interpolateDepartureFromClamp step.travelledPathOffset +
            pathStartTime explorer startOffset (startTime + d) ∈
          Set.Icc (b.plannedMinTimeAtStep plannedTimingData) (b.plannedMaxTimeAtStep plannedTimingData) := by
  rw [← add_zero d, ← mem_insideAll_shift, ← windowsAt_add, add_zero]
  simp only [insideAll, windowsAt, stepWindows, stepWindow, Set.mem_ofPred_eq, mem_filterMap,
    mem_reverse, Option.map_eq_some_iff]
  constructor
  · intro h step hstep data hdata
    have := h _ ⟨step, hstep, data, hdata, rfl⟩
    exact ⟨sub_nonpos.mp this.1, sub_nonneg.mp this.2⟩
  · rintro h w ⟨step, hstep, data, hdata, rfl⟩
    have := h step hstep data hdata
    exact ⟨sub_nonpos.mpr this.1, sub_nonneg.mpr this.2⟩

theorem mem_acceptableDelays {d : ℚ} : d ∈ b.acceptableDelays explorer startOffset endOffset startTime ↔
      0 ≤ d ∧ d ∈ insideAll (b.windowsAt explorer startOffset endOffset startTime) ∩
        ConflictFree b.spacingZoneUses (requirementsAt explorer startOffset endOffset startTime) := by
  rw [Set.mem_inter_iff, mem_insideAll_windowsAt]
  refine and_congr_right fun _ => and_congr_right fun _ => ?_
  rw [requirementsAt_add]
  have hzero := Set.ext_iff.mp (@conflictFree_shift b.spacingZoneUses
    (requirementsAt explorer startOffset endOffset startTime) d) 0
  rwa [Set.mem_ofPred_eq, add_zero] at hzero

/-- What one turn answers, at any delay. -/
theorem availabilityAt_answer (hsteps : explorer.seenSteps ≠ []) (s : ℚ) :
    ∃ a, b.availabilityAt explorer startOffset endOffset (startTime + s) = some a ∧ SectionAnswer
        ((b.windowsAt explorer startOffset endOffset startTime).map (shift s))
        {x | s + x ∈ ConflictFree b.spacingZoneUses
          (requirementsAt explorer startOffset endOffset startTime)} a := by
  obtain ⟨a, ha, hconflict⟩ := @getConflictAvailability_answer b explorer startOffset hsteps
    (pathStartTime explorer startOffset (startTime + s)) (startTime + s)
    (endTime explorer startOffset endOffset (startTime + s))
  have hstep := @getStepAvailability_answer b explorer startOffset endOffset
    (pathStartTime explorer startOffset (startTime + s))
  have hrequirements := @requirementsAt_add explorer startOffset endOffset startTime s
  rw [requirementsAt] at hrequirements
  rw [hrequirements, conflictFree_shift] at hconflict
  rw [← windowsAt_add, windowsAt]
  refine ⟨_, ?_, hstep.mostRestrictive hconflict⟩
  rw [availabilityAt, ha]
  rfl

/-- What an answer has to say when `delays` are the acceptable delays. -/
def Describes (delays : Set ℚ) : Availability → Prop
  | .Available maximumDelay _ => 0 ∈ delays ∧ ∃ m : WithTop ℚ, maximumDelay = m ∧
      ∀ D : ℚ, 0 ≤ D → (Set.Icc 0 D ⊆ delays ↔ D ≤ m)
  | .Unavailable duration _ _ => 0 ∉ delays ∧ (∀ d : ℚ, duration = d → IsLeast delays d) ∧
      (duration = ⊤ → delays = ∅)

open Classical in
/-- Turns the loop may still take: one to become on time, one to leave the conflicts, one to see that
    nothing is left. -/
noncomputable def turns (ws : List DelayWindow) (free : Set ℚ) (s : ℚ) : ℕ :=
  if ∀ w ∈ ws, w.lo ≤ s then if s ∈ free then 1 else 2 else 3

theorem turns_pos (ws : List DelayWindow) (free : Set ℚ) (s : ℚ) :
    0 < turns ws free s ∧ turns ws free s ≤ 3 := by
  unfold turns
  split
  · split <;> decide
  · decide

variable {ws : List DelayWindow} {free : Set ℚ}

theorem turns_lt {s s' : ℚ} (honTime : ∀ w ∈ ws, w.lo ≤ s')
    (hfree : (∀ w ∈ ws, w.lo ≤ s) → s ∉ free ∧ s' ∈ free) : turns ws free s' < turns ws free s := by
  rw [turns, turns, if_pos honTime]
  rcases Classical.em (∀ w ∈ ws, w.lo ≤ s) with h | h
  · rw [if_pos h, if_pos (hfree h).2, if_neg (hfree h).1]
    decide
  · split <;> decide

theorem availabilityLoop_top (fuel : ℕ) (c : Option String) (o : Option Offset) :
    b.availabilityLoop explorer startOffset endOffset startTime fuel ⊤ c o =
      some (.Unavailable ⊤ (o.getD startOffset) c) := by
  cases fuel <;> rfl

theorem availabilityLoop_available {s : ℚ} {m : WithBot (WithTop ℚ)} {t : WithTop ℚ}
    (ha : b.availabilityAt explorer startOffset endOffset (startTime + s) =
      some (.Available m t)) (fuel : ℕ) (c : Option String) (o : Option Offset) :
    b.availabilityLoop explorer startOffset endOffset startTime (fuel + 1) s c o =
      some (if 0 < s then .Unavailable s (o.getD startOffset) c else .Available m t) := by
  refine Eq.trans (b := some (.Available m t) >>= _) (congrArg (· >>= _) ha) ?_
  exact (apply_ite some _ _ _).symm

theorem availabilityLoop_unavailable {s : ℚ} {duration : WithTop ℚ} {o' : Offset} {c' : Option String}
    (ha : b.availabilityAt explorer startOffset endOffset (startTime + s) =
      some (.Unavailable duration o' c')) (fuel : ℕ) (c : Option String) (o : Option Offset) :
    b.availabilityLoop explorer startOffset endOffset startTime (fuel + 1) s c o =
      b.availabilityLoop explorer startOffset endOffset startTime fuel (s + duration)
        (c' <|> c) (o.getD o') :=
  Eq.trans (b := some (.Unavailable duration o' c') >>= _) (congrArg (· >>= _) ha) rfl

theorem availabilityLoop_throws {s : ℚ}
    (ha : b.availabilityAt explorer startOffset endOffset (startTime + s) = none) (fuel : ℕ)
    (c : Option String) (o : Option Offset) :
    b.availabilityLoop explorer startOffset endOffset startTime (fuel + 1) s c o = none :=
  Eq.trans (b := none >>= _) (congrArg (· >>= _) ha) rfl

theorem forall_mem_shift {s e : ℚ} : (∀ w ∈ ws.map (shift s), w.lo ≤ e) ↔ ∀ w ∈ ws, w.lo ≤ s + e := by
  simp only [shift, forall_mem_map, sub_le_iff_le_add']

theorem mem_shifted {s x : ℚ} : x ∈ insideAll (ws.map (shift s)) ∩ {x | s + x ∈ free} ↔
      s + x ∈ insideAll ws ∩ free :=
  and_congr mem_insideAll_shift Iff.rfl

theorem skips_of_shifted {s r : ℚ}
    (h : Skips (insideAll (ws.map (shift s)) ∩ {x | s + x ∈ free}) (0 : ℚ) r) :
    Skips (insideAll ws ∩ free) s (s + r : ℚ) := by
  intro x hx hxr hin
  have hxs : s + (x - s) = x := by ring
  refine h (x - s) ?_ ?_ (mem_shifted.mpr (hxs.symm ▸ hin))
  · exact coe_le_coe.mpr (sub_nonneg.mpr (coe_le_coe.mp hx))
  · exact coe_lt_coe.mpr (sub_lt_iff_lt_add'.mpr (coe_lt_coe.mp hxr))

/-- From a delay before which none is acceptable, the loop ends with the right answer. -/
theorem availabilityLoop_describes (hsteps : explorer.seenSteps ≠ [])
    (hws : b.windowsAt explorer startOffset endOffset startTime = ws)
    (hfree : ConflictFree b.spacingZoneUses (requirementsAt explorer startOffset endOffset startTime) =
      free) :
    ∀ {fuel : ℕ} {s : ℚ} {c : Option String} {o : Option Offset}, turns ws free s ≤ fuel → 0 ≤ s →
      Skips (insideAll ws ∩ free) (0 : ℚ) s → EarlyIncreasing (ws.map (shift s)) →
      ∃ a, b.availabilityLoop explorer startOffset endOffset startTime fuel s c o = some a ∧
        Describes (b.acceptableDelays explorer startOffset endOffset startTime) a
  | 0, s, c, o, hfuel, _, _, _ => absurd hfuel (not_le.mpr (turns_pos ws free s).1)
  | fuel + 1, s, c, o, hfuel, hs, hskips, hinc => by
    have hmem : ∀ {d : ℚ}, d ∈ b.acceptableDelays explorer startOffset endOffset startTime ↔
        0 ≤ d ∧ d ∈ insideAll ws ∩ free := by
      rw [← hws, ← hfree]
      exact mem_acceptableDelays
    obtain ⟨a, ha, hanswer⟩ := @availabilityAt_answer b explorer startOffset endOffset startTime hsteps s
    rw [hws, hfree] at hanswer
    cases hanswer with
    | available m t huntil =>
      have hsmem : s ∈ insideAll ws ∩ free := by simpa using mem_shifted.mp huntil.mem
      refine ⟨_, availabilityLoop_available ha fuel c o, ?_⟩
      rcases hs.lt_or_eq with hpos | rfl
      · rw [if_pos hpos]
        refine ⟨fun h => ?_, fun d hd => ?_, fun h => absurd h coe_ne_top⟩
        · exact hskips 0 le_rfl (coe_lt_coe.mpr hpos) (hmem.mp h).2
        · rw [← WithTop.coe_inj.mp hd]
          refine ⟨hmem.mpr ⟨hs, hsmem⟩, fun x hx => not_lt.mp fun hlt => ?_⟩
          exact hskips x (coe_le_coe.mpr (hmem.mp hx).1) (coe_lt_coe.mpr hlt)
            (hmem.mp hx).2
      · refine ⟨hmem.mpr ⟨le_rfl, hsmem⟩, m, rfl, fun D hD => ?_⟩
        have hrel : ∀ {x : ℚ}, x ∈ insideAll (ws.map (shift 0)) ∩ {x | 0 + x ∈ free} ↔
            x ∈ insideAll ws ∩ free := fun {x} => by rw [mem_shifted, zero_add]
        rw [← huntil.iff D hD]
        exact ⟨fun h x hx hxD => hrel.mpr (hmem.mp (h ⟨hx, hxD⟩)).2,
          fun h x hx => hmem.mpr ⟨hx.1, hrel.mp (h x hx.1 hx.2)⟩⟩
    | wait r o' c' hinc' hr hskips' honTime hfree' =>
      have honTime' := forall_mem_shift.mp honTime
      have hlt : turns ws free (s + r) < turns ws free s := by
        refine turns_lt honTime' fun h => ?_
        simpa using hfree' (forall_mem_shift.mpr (by simpa using h))
      rw [availabilityLoop_unavailable ha, ← coe_add]
      refine availabilityLoop_describes hsteps hws hfree
        (Nat.le_of_lt_succ (hlt.trans_le hfuel)) (add_nonneg hs hr.le)
        (hskips.trans (skips_of_shifted hskips')) (earlyIncreasing_of_onTime ?_)
      exact forall_mem_shift.mpr (by simpa using honTime')
    | never o' c' hnever =>
      have hempty : b.acceptableDelays explorer startOffset endOffset startTime = ∅ := by
        refine Set.eq_empty_iff_forall_notMem.mpr fun x hx => ?_
        obtain ⟨hx, hin⟩ := hmem.mp hx
        rcases lt_or_ge x s with hlt | hge
        · exact hskips x (coe_le_coe.mpr hx) (coe_lt_coe.mpr hlt) hin
        · refine hnever hinc (x - s) (sub_nonneg.mpr hge) (mem_shifted.mpr ?_)
          rwa [add_sub_cancel]
      rw [availabilityLoop_unavailable ha, WithTop.add_top]
      refine ⟨_, availabilityLoop_top fuel _ _, ?_⟩
      rw [hempty]
      exact ⟨fun h => h, fun d hd => absurd hd.symm coe_ne_top, fun _ => rfl⟩

/-- Early steps in the wrong order make the first turn give up. -/
theorem getAvailability_disorder (hsteps : explorer.seenSteps ≠ [])
    (hinc : ¬ EarlyIncreasing (b.windowsAt explorer startOffset endOffset startTime)) :
    ∃ o c, b.getAvailability explorer startOffset endOffset startTime = some (.Unavailable ⊤ o c) := by
  obtain ⟨a, ha, hanswer⟩ := @availabilityAt_answer b explorer startOffset endOffset startTime hsteps 0
  have hshift : (b.windowsAt explorer startOffset endOffset startTime).map
      (shift 0) = b.windowsAt explorer startOffset endOffset startTime := by
    rw [← windowsAt_add, add_zero]
  rw [hshift] at hanswer
  cases hanswer with
  | available m t huntil =>
    exact absurd (earlyIncreasing_of_onTime fun w hw => (huntil.mem.1 w hw).1) hinc
  | wait r o c hinc' => exact absurd hinc' hinc
  | never o c hnever =>
    have hloop := availabilityLoop_unavailable ha 2 none none
    exact ⟨_, _, hloop⟩

/-- The answer is the right one exactly when a step has been seen and either no delay is acceptable,
    or each early step of the section needs more delay than the early steps further on the path. -/
theorem getAvailability_describes_iff (b : BlockAvailability)
    (explorer : InfraExplorerWithEnvelope) (startOffset endOffset : Offset) (startTime : ℚ) :
    (∃ a, b.getAvailability explorer startOffset endOffset startTime = some a ∧
      Describes (b.acceptableDelays explorer startOffset endOffset startTime) a) ↔
    explorer.seenSteps ≠ [] ∧ (b.acceptableDelays explorer startOffset endOffset startTime = ∅ ∨
        EarlyIncreasing (b.windowsAt explorer startOffset endOffset startTime)) := by
  constructor
  · rintro ⟨a, ha, hdescribes⟩
    have hsteps : explorer.seenSteps ≠ [] := by
      intro hnone
      have hthrows : b.availabilityAt explorer startOffset endOffset (startTime + (0 : ℚ)) =
          none := by simp [availabilityAt, getConflictAvailability, hnone]
      exact nomatch (availabilityLoop_throws hthrows 2 none none).symm.trans ha
    refine ⟨hsteps, or_iff_not_imp_right.mpr fun hinc => ?_⟩
    obtain ⟨o, c, hnever⟩ := getAvailability_disorder hsteps hinc
    cases ha.symm.trans hnever
    exact hdescribes.2.2 rfl
  · rintro ⟨hsteps, hcond⟩
    rcases Classical.em
      (EarlyIncreasing (b.windowsAt explorer startOffset endOffset startTime)) with hinc | hinc
    · refine availabilityLoop_describes hsteps rfl rfl (turns_pos _ _ _).2 le_rfl (Skips.refl _ _) ?_
      rwa [← windowsAt_add, add_zero]
    · obtain ⟨o, c, hnever⟩ := getAvailability_disorder hsteps hinc
      refine ⟨_, hnever, ?_⟩
      rw [hcond.resolve_right hinc]
      exact ⟨fun h => h, fun d hd => absurd hd.symm coe_ne_top, fun _ => rfl⟩

end Loop

/-! ### Two early steps -/

/-- A step at the given metre of the path, planned from `lower` to `upper` seconds. -/
def plannedStep (meter lower upper : ℤ) : LocatedStep where
  travelledPathOffset := meter * 1000
  location := ⟨0, meter * 1000⟩
  originalStep := ⟨[⟨0, meter * 1000⟩], false, some ⟨⟨lower * 1000⟩, ⟨0⟩, ⟨(upper - lower) * 1000⟩⟩⟩
  location_mem := mem_singleton_self _

def departureStep : LocatedStep := ⟨0, ⟨0, 0⟩, ⟨[⟨0, 0⟩], true, none⟩, mem_singleton_self _⟩

/-- A train that runs at 1 m/s on an empty path. -/
def slowTrain (seenSteps : List LocatedStep) : InfraExplorerWithEnvelope where
  fullEnvelope := ⟨0, 3, 3, id⟩
  simulatedLength := 3000
  currentBlockPathBegin := 0
  lookahead := []
  seenSteps := seenSteps
  fullSpacingRequirements := []
  spacingRequirements := []

def emptyTimetable : BlockAvailability := ⟨fun _ => none, 0, none⟩

/-- The step at 1 m is early by 10 s and the one at 2 m by 20 s. A delay of 20 s suits both, but they
    are found to be forever unavailable; with the steps the other way round the delay is found. -/
theorem getAvailability_two_early : emptyTimetable.getAvailability
        (slowTrain [departureStep, plannedStep 1 11 100, plannedStep 2 22 100]) 0 3000 0 =
      some (.Unavailable ⊤ 2000 none) ∧ 20 ∈ emptyTimetable.acceptableDelays
        (slowTrain [departureStep, plannedStep 1 11 100, plannedStep 2 22 100]) 0 3000 0 ∧
    emptyTimetable.getAvailability
        (slowTrain [departureStep, plannedStep 2 22 100, plannedStep 1 11 100]) 0 3000 0 =
      some (.Unavailable (20 : ℚ) 2000 none) := by
  refine ⟨by decide +kernel, mem_acceptableDelays.mpr ⟨by decide +kernel, ?_, ?_⟩, by decide +kernel⟩
  · have hinside : ∀ w ∈ emptyTimetable.windowsAt
        (slowTrain [departureStep, plannedStep 1 11 100, plannedStep 2 22 100]) 0 3000 0,
        w.lo ≤ 20 ∧ 20 ≤ w.hi := by decide +kernel
    exact hinside
  · exact fun requirement hrequirement => nomatch hrequirement

end Osrd.Stdcm.BlockAvailability
