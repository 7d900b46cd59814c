import Mathlib.Algebra.Order.Group.Defs
import Mathlib.Algebra.Order.Monoid.WithTop
import Mathlib.Algebra.Order.BigOperators.Group.List
import Mathlib.Algebra.Order.Group.Int
import Mathlib.Algebra.Order.Group.Nat
import Mathlib.Tactic.Abel
import Osrd.Conflicts.ZoneUses
import Osrd.Lib.LeastFree

/-! Model of `IncrementalConflictDetector` (`core/.../conflicts/IncrementalConflictDetector.kt`): the
    requirements of a new train are compared with the uses of each zone by the timetable.

    Times are exact numbers (an ordered additive group); a delay may be infinite, so it lies in
    `WithTop Time`. -/

namespace Osrd.Conflicts

open LeastFree List
open WithTop (coe_le_coe coe_lt_coe coe_inj top_ne_coe coe_ne_top coe_add coe_zero coe_lt_top)

section Model

variable {Time : Type} [LinearOrder Time]

variable [AddCommGroup Time]

/-- The delay after looking at one requirement, when it has to grow: the shifted requirement meets the
    first use that ends after its start, and is moved to the end of that use. -/
def delayPast (map : ZoneUses Time) (spacingRequirement : SpacingRequirement Time)
    (minDelay : Time) : Option (WithTop Time) :=
  let requirementStart := minDelay + spacingRequirement.beginTime
  let requirementEnd := minDelay + spacingRequirement.endTime
  match map.higherEntry requirementStart with
  | none => none
  | some firstEntryStartAfter =>
      if requirementEnd ≤ firstEntryStartAfter.lowerEndpoint then none
      else some (firstEntryStartAfter.upperEndpoint.map fun upperEndpoint =>
        minDelay + (upperEndpoint - requirementStart))

variable (spacingZoneUses : ParsedRequirements Time)

/-- One turn of the inner loop, on `minDelay` and `hasIncreasedDelay`. -/
def delayTurn (st : WithTop Time × Bool)
    (spacingRequirement : SpacingRequirement Time) : WithTop Time × Bool :=
  match spacingZoneUses spacingRequirement.zone, st.1 with
  | some map, .some minDelay =>
      match delayPast map spacingRequirement minDelay with
      | none => st
      | some minDelay => (minDelay, true)
  -- an unused zone, or no entry above an infinite start
  | _, _ => st

variable (spacingRequirements : List (SpacingRequirement Time))

def delayPass (minDelay : WithTop Time) : WithTop Time × Bool :=
  spacingRequirements.foldl (delayTurn spacingZoneUses) (minDelay, false)

/-- The `while (true)` loop; `none` when the fuel runs out. -/
def delayLoop (spacingZoneUses : ParsedRequirements Time)
    (spacingRequirements : List (SpacingRequirement Time)) : ℕ → WithTop Time → Option (WithTop Time)
  | 0, _ => none
  | fuel + 1, minDelay =>
      let (minDelay, hasIncreasedDelay) := delayPass spacingZoneUses spacingRequirements minDelay
      if !hasIncreasedDelay || minDelay = ⊤ then some minDelay
      else delayLoop spacingZoneUses spacingRequirements fuel minDelay

/-- The uses a requirement may have to be moved past. -/
def usesOf (spacingRequirement : SpacingRequirement Time) : List (TimeRange Time) :=
  ((spacingZoneUses spacingRequirement.zone).map ZoneUses.ranges).getD []

/-- Passes that always suffice: one for each use a requirement can meet, and one without a change. -/
def maxPasses : ℕ :=
  (spacingRequirements.map fun r => (usesOf spacingZoneUses r).length).sum + 1

/-- The minimum amount of delay to add to the new requirements to avoid any conflict. -/
def minDelayWithoutConflicts : Option (WithTop Time) :=
  delayLoop spacingZoneUses spacingRequirements
    (maxPasses spacingZoneUses spacingRequirements) 0

/-- One turn of `earliestConflictTime`, on `res` and `zone` (`none` while they are infinite and
    `null`). -/
def earliestConflictTurn (res : Option (Time × ZoneId))
    (spacingRequirement : SpacingRequirement Time) : Option (Time × ZoneId) :=
  match (spacingZoneUses spacingRequirement.zone).bind
      (·.higherEntry spacingRequirement.beginTime) with
  | none => res
  | some entry =>
      if spacingRequirement.endTime < (entry.lowerEndpoint : WithTop Time) then res
      else
        let firstConflictTime := max entry.lowerEndpoint spacingRequirement.beginTime
        match res with
        | none => some (firstConflictTime, spacingRequirement.zone)
        | some (time, zone) =>
            if firstConflictTime < time then some (firstConflictTime, spacingRequirement.zone)
            else some (time, zone)

/-- The earliest time at which there is a conflict, and its zone; `none` when none was found. -/
def earliestConflictTime : Option (Time × ZoneId) :=
  spacingRequirements.foldl (earliestConflictTurn spacingZoneUses) none

/-- `nextUse - endTime`: minus infinity for an endless requirement. -/
def slack (nextUse : Time) : WithTop Time → WithBot (WithTop Time)
  | .some endTime => ((nextUse - endTime : Time) : WithTop Time)
  | .none => ⊥

inductive IncrementalConflictResponse (Time : Type)
  | ConflictResponse (minDelayWithoutConflicts : WithTop Time) (firstConflictTime : Time)
      (conflictingZone : ZoneId)
  | NoConflictResponse (maxDelayWithoutConflicts : WithBot (WithTop Time))
      (timeOfNextConflict : WithTop Time)

/-- One turn of the loop when there is no conflict, on `maxDelay` and `timeOfNextConflict`. -/
def nextConflictTurn
    (st : WithBot (WithTop Time) × WithTop Time) (spacingRequirement : SpacingRequirement Time) :
    WithBot (WithTop Time) × WithTop Time :=
  match (spacingZoneUses spacingRequirement.zone).bind
      (·.higherEntry spacingRequirement.beginTime) with
  | none => st
  | some entry =>
      let nextUse := entry.lowerEndpoint
      (min st.1 (slack nextUse spacingRequirement.endTime), min st.2 nextUse)

def nextConflict : WithBot (WithTop Time) × WithTop Time :=
  spacingRequirements.foldl (nextConflictTurn spacingZoneUses) ((⊤ : WithTop Time), ⊤)

/-- Checks for any conflict between the initial requirements and the ones given here; `none` when the
    `require` of `earliestConflictTime` fails. -/
def analyseConflicts : Option (IncrementalConflictResponse Time) := do
  let minDelay ← minDelayWithoutConflicts spacingZoneUses spacingRequirements
  if minDelay ≠ 0 then
    let (time, zone) ← earliestConflictTime spacingZoneUses spacingRequirements
    return .ConflictResponse minDelay time zone
  else
    let (maxDelay, timeOfNextConflict) := nextConflict spacingZoneUses spacingRequirements
    return .NoConflictResponse maxDelay timeOfNextConflict

end Model

/-! ### Conflict-free delays -/

theorem foldl_earliestConflictTurn_isSome {Time : Type} [LinearOrder Time]
    {uses : ParsedRequirements Time} : ∀ {rs : List (SpacingRequirement Time)}
    {res : Option (Time × ZoneId)}, res.isSome → (rs.foldl (earliestConflictTurn uses) res).isSome
  | [], _, h => h
  | r :: rs, some (time, zone), _ => by
    have hturn : (earliestConflictTurn uses (some (time, zone)) r).isSome := by
      simp only [earliestConflictTurn]
      split
      · rfl
      · split
        · rfl
        · split <;> rfl
    rw [foldl_cons]
    exact foldl_earliestConflictTurn_isSome hturn

section Delay

variable {Time : Type} [LinearOrder Time] [AddCommGroup Time]

/-- Some instant lies both in the requirement shifted by `d` and in the use. -/
def Overlaps (req : SpacingRequirement Time) (d : Time) (use : TimeRange Time) : Prop :=
  ∃ t : Time, (d + req.beginTime ≤ t ∧ (t : WithTop Time) < d + req.endTime) ∧
    use.lowerEndpoint ≤ t ∧ (t : WithTop Time) < use.upperEndpoint

variable (uses : ParsedRequirements Time)

/-- The delays at which no requirement overlaps a use of its zone. -/
def ConflictFree (reqs : List (SpacingRequirement Time)) : Set Time :=
  {d | ∀ req ∈ reqs, ∀ use ∈ usesOf uses req,
    ¬ Overlaps req d use}

/-- How many uses of the zone the delayed requirement has not passed. -/
def pendingUses (map : ZoneUses Time) (req : SpacingRequirement Time) (d : Time) : ℕ :=
  map.ranges.countP fun r => ((d + req.beginTime : Time) : WithTop Time) < r.upperEndpoint

/-- All that the delayed requirements have not passed; it bounds the passes still to come. -/
def pendingTotal (reqs : List (SpacingRequirement Time)) (d : Time) : ℕ :=
  (reqs.map fun r =>
    ((uses r.zone).map fun map => pendingUses map r d).getD 0).sum

/-- What a part of a pass does, from `st` to `st'`, looking at `requirements`. -/
structure Moved (uses : ParsedRequirements Time)
    (reqs requirements : List (SpacingRequirement Time))
    (st st' : WithTop Time × Bool) : Prop where
  le : st.1 ≤ st'.1
  skips : Skips (ConflictFree uses reqs) st.1 st'.1
  quiet : st'.2 = false → st' = st ∧ ∀ r ∈ requirements, ∀ use ∈ usesOf uses r,
    ∀ d : Time, st.1 = d → ¬ Overlaps r d use
  pending : ∀ d d' : Time, st.1 = d → st'.1 = d' →
    pendingTotal uses reqs d' ≤
        pendingTotal uses reqs d ∧
      (st'.2 = true → st.2 = true ∨ pendingTotal uses reqs d' <
        pendingTotal uses reqs d)

section Moved

variable {uses : ParsedRequirements Time} {reqs : List (SpacingRequirement Time)}

theorem Moved.refl (st : WithTop Time × Bool) : Moved uses reqs [] st st where
  le := le_rfl
  skips := Skips.refl _ _
  quiet := fun _ => ⟨rfl, by simp⟩
  pending := by
    intro d d' hd hd'
    obtain rfl := coe_inj.mp (hd.symm.trans hd')
    exact ⟨le_rfl, .inl⟩

theorem Moved.trans {rs rs' : List (SpacingRequirement Time)} {st st' st'' : WithTop Time × Bool}
    (h : Moved uses reqs rs st st') (h' : Moved uses reqs rs' st' st'') :
    Moved uses reqs (rs ++ rs') st st'' where
  le := h.le.trans h'.le
  skips := h.skips.trans h'.skips
  quiet := by
    intro hfalse
    obtain ⟨rfl, hquiet'⟩ := h'.quiet hfalse
    obtain ⟨rfl, hquiet⟩ := h.quiet hfalse
    refine ⟨rfl, fun r hr => ?_⟩
    rcases mem_append.mp hr with hr | hr
    · exact hquiet r hr
    · exact hquiet' r hr
  pending := by
    intro d d'' hd hd''
    obtain ⟨d', hd'⟩ := WithTop.ne_top_iff_exists.mp
      (ne_top_of_le_ne_top (hd'' ▸ coe_ne_top) h'.le)
    obtain ⟨hle, hlt⟩ := h.pending d d' hd hd'.symm
    obtain ⟨hle', hlt'⟩ := h'.pending d' d'' hd'.symm hd''
    refine ⟨hle'.trans hle, fun htrue => ?_⟩
    rcases hlt' htrue with hflag | hlt'
    · exact (hlt hflag).imp_right hle'.trans_lt
    · exact .inr (hlt'.trans_le hle)

theorem pendingTotal_lt_maxPasses (d : Time) : pendingTotal uses reqs d < maxPasses uses reqs := by
  refine Nat.lt_succ_of_le (sum_le_sum fun r _ => ?_)
  cases hmap : uses r.zone with
  | none => simp
  | some map =>
    simp only [usesOf, hmap]
    exact countP_le_length

end Moved

/-- Up to `m` the requirements overlap nothing, and not any further. -/
def Room (rs : List (SpacingRequirement Time)) (m : WithTop Time) : Prop :=
  0 ≤ m ∧ ∀ d : Time, 0 ≤ d →
    ((d : WithTop Time) ≤ m → ∀ r ∈ rs, ∀ use ∈ usesOf uses r, ¬ Overlaps r d use) ∧
    (m < d → ∃ x, 0 ≤ x ∧ x ≤ d ∧ ∃ r ∈ rs, ∃ use ∈ usesOf uses r, Overlaps r x use)

theorem Room.append {uses : ParsedRequirements Time}
    {rs rs' : List (SpacingRequirement Time)} {m m' : WithTop Time}
    (h : Room uses rs m) (h' : Room uses rs' m') : Room uses (rs ++ rs') (min m m') := by
  refine ⟨le_min h.1 h'.1, fun d hd => ⟨fun hle r hr => ?_, fun hlt => ?_⟩⟩
  · rcases mem_append.mp hr with hr | hr
    · exact (h.2 d hd).1 (hle.trans (min_le_left _ _)) r hr
    · exact (h'.2 d hd).1 (hle.trans (min_le_right _ _)) r hr
  · rcases min_lt_iff.mp hlt with hlt | hlt
    · obtain ⟨x, hx, hxd, r, hr, hover⟩ := (h.2 d hd).2 hlt
      exact ⟨x, hx, hxd, r, mem_append_left _ hr, hover⟩
    · obtain ⟨x, hx, hxd, r, hr, hover⟩ := (h'.2 d hd).2 hlt
      exact ⟨x, hx, hxd, r, mem_append_right _ hr, hover⟩

theorem room_top {uses : ParsedRequirements Time} {r : SpacingRequirement Time}
    (hclear : ∀ d : Time, 0 ≤ d → ∀ use ∈ usesOf uses r, ¬ Overlaps r d use) : Room uses [r] ⊤ := by
  refine ⟨le_top, fun d hd => ⟨fun _ r' hr' => ?_, fun hlt => absurd hlt not_top_lt⟩⟩
  rw [mem_singleton.mp hr']
  exact hclear d hd

theorem room_nil {uses : ParsedRequirements Time} : Room uses [] ⊤ :=
  ⟨le_top, fun _ _ => ⟨fun _ _ hr => by simp at hr, fun hlt => absurd hlt not_top_lt⟩⟩

theorem countP_lt_countP {α : Type} {p q : α → Bool} {as : List α} {a : α} (hmem : a ∈ as)
    (hpq : ∀ x ∈ as, p x → q x) (hq : q a) (hp : ¬ p a) : as.countP p < as.countP q := by
  obtain ⟨s, t, rfl⟩ := append_of_mem hmem
  rw [countP_append, countP_append, countP_cons_of_neg hp, countP_cons_of_pos hq]
  have hs : s.countP p ≤ s.countP q := countP_mono_left fun x hx => hpq x (by simp [hx])
  have ht : t.countP p ≤ t.countP q := countP_mono_left fun x hx => hpq x (by simp [hx])
  omega

/-- A delay up to the end of a use leaves that use behind. -/
theorem pendingUses_lt (map : ZoneUses Time) {req : SpacingRequirement Time} {d u : Time}
    {use : TimeRange Time} (hmem : use ∈ map.ranges) (hupper : use.upperEndpoint = u)
    (hbefore : d + req.beginTime < u) :
    pendingUses map req (u - req.beginTime) < pendingUses map req d := by
  refine countP_lt_countP hmem (fun r _ hr => ?_) ?_ ?_
  · rw [decide_eq_true_eq] at hr ⊢
    refine (coe_le_coe.mpr ?_).trans_lt hr
    rw [sub_add_cancel]
    exact hbefore.le
  · rw [decide_eq_true_eq, hupper, coe_lt_coe]
    exact hbefore
  · rw [decide_eq_true_eq, hupper, coe_lt_coe, sub_add_cancel]
    exact lt_irrefl u

variable [IsOrderedAddMonoid Time]

theorem overlaps_iff {req : SpacingRequirement Time} {d : Time} {use : TimeRange Time}
    (hr : (req.beginTime : WithTop Time) < req.endTime)
    (hu : (use.lowerEndpoint : WithTop Time) < use.upperEndpoint) : Overlaps req d use ↔
      ((d + req.beginTime : Time) : WithTop Time) < use.upperEndpoint ∧
        (use.lowerEndpoint : WithTop Time) < d + req.endTime := by
  constructor
  · rintro ⟨t, ⟨hbt, hte⟩, hlt, htu⟩
    exact ⟨(coe_le_coe.mpr hbt).trans_lt htu, (coe_le_coe.mpr hlt).trans_lt hte⟩
  · rintro ⟨hbu, hle⟩
    have hbe : ((d + req.beginTime : Time) : WithTop Time) < d + req.endTime := by
      exact WithTop.add_lt_add_left coe_ne_top hr
    refine ⟨max (d + req.beginTime) use.lowerEndpoint, ⟨le_max_left _ _, ?_⟩, le_max_right _ _, ?_⟩
    · exact max_lt hbe hle
    · exact max_lt hbu hu

theorem pendingUses_antitone (map : ZoneUses Time) (req : SpacingRequirement Time)
    {d d' : Time} (h : d ≤ d') : pendingUses map req d' ≤ pendingUses map req d := by
  refine countP_mono_left fun r _ hr => ?_
  rw [decide_eq_true_eq] at hr ⊢
  exact (coe_le_coe.mpr (add_le_add_left h _)).trans_lt hr

/-- A requirement is clear of every use when it ends before the first one that is not over at `key`. -/
theorem clear_of_higherEntry (map : ZoneUses Time) {req : SpacingRequirement Time}
    (hr : (req.beginTime : WithTop Time) < req.endTime) {key d : Time} (hkey : key ≤ d + req.beginTime)
    (hend : ∀ entry, map.higherEntry key = some entry →
      (d : WithTop Time) + req.endTime ≤ entry.lowerEndpoint) :
    ∀ use ∈ map.ranges, ¬ Overlaps req d use := by
  intro use huse hover
  rw [overlaps_iff hr (map.nonempty use huse)] at hover
  have hover' : ¬ use.upperEndpoint ≤ key := not_le.mpr ((coe_le_coe.mpr hkey).trans_lt hover.1)
  have hspec := map.higherEntry_spec key
  cases hentry : map.higherEntry key with
  | none =>
    rw [hentry] at hspec
    exact hover' (hspec use huse)
  | some entry =>
    rw [hentry] at hspec
    obtain ⟨hmem, -, hothers⟩ := hspec
    have hend := hend entry hentry
    rcases hothers use huse with hle | rfl | hafter
    · exact hover' hle
    · exact not_lt.mpr hend hover.2
    · exact not_lt.mpr (hend.trans ((map.nonempty entry hmem).trans_le hafter).le) hover.2

/-- A requirement that is not moved is free of conflicts; one that is moved skips overlapping delays only,
    and leaves a use behind. -/
theorem delayPast_spec (map : ZoneUses Time) {req : SpacingRequirement Time}
    (hr : (req.beginTime : WithTop Time) < req.endTime) (d : Time) :
    match delayPast map req d with
    | none => ∀ use ∈ map.ranges, ¬ Overlaps req d use
    | some e => (d : WithTop Time) < e ∧
        (∀ x : Time, d ≤ x → (x : WithTop Time) < e → ∃ use ∈ map.ranges, Overlaps req x use) ∧
        ∀ d' : Time, e = d' → pendingUses map req d' < pendingUses map req d := by
  have hclear := @clear_of_higherEntry Time _ _ _ map req hr _ d le_rfl
  have hspec := map.higherEntry_spec (d + req.beginTime)
  simp only [delayPast]
  cases hentry : map.higherEntry (d + req.beginTime) with
  | none => exact hclear fun entry h => (nomatch hentry.symm.trans h)
  | some entry =>
    rw [hentry] at hspec
    obtain ⟨hmem, hkey, -⟩ := hspec
    by_cases hend : (d : WithTop Time) + req.endTime ≤ entry.lowerEndpoint
    · -- the first use that is not over begins after the req
      simp only [if_pos hend]
      refine hclear fun entry' h => ?_
      cases hentry.symm.trans h
      exact hend
    · simp only [if_neg hend]
      have hover : ∀ x : Time, d ≤ x →
          ((x + req.beginTime : Time) : WithTop Time) < entry.upperEndpoint →
          Overlaps req x entry := by
        intro x hx hxu
        rw [overlaps_iff hr (map.nonempty entry hmem)]
        exact ⟨hxu, (not_le.mp hend).trans_le (add_le_add_left (coe_le_coe.mpr hx) _)⟩
      cases hupper : entry.upperEndpoint with
      | top =>
        refine ⟨coe_lt_top d, fun x hx _ => ⟨entry, hmem, hover x hx ?_⟩, fun d' hd' => ?_⟩
        · rw [hupper]
          exact coe_lt_top _
        · exact absurd hd' top_ne_coe
      | coe u =>
        rw [hupper, coe_lt_coe] at hkey
        have hmove : d + (u - (d + req.beginTime)) = u - req.beginTime := by abel
        have hmap : WithTop.map (fun upperEndpoint => d + (upperEndpoint -
            (d + req.beginTime))) (u : WithTop Time) =
            ((u - req.beginTime : Time) : WithTop Time) := by
          rw [WithTop.map_coe, hmove]
        rw [hmap]
        refine ⟨?_, fun x hx hxe => ⟨entry, hmem, hover x hx ?_⟩, fun d' hd' => ?_⟩
        · rw [coe_lt_coe]
          exact lt_sub_iff_add_lt.mpr hkey
        · rw [coe_lt_coe] at hxe
          rw [hupper, coe_lt_coe]
          exact lt_sub_iff_add_lt.mp hxe
        · obtain rfl := coe_inj.mp hd'
          exact pendingUses_lt map hmem hupper hkey

section Pass

variable {uses : ParsedRequirements Time} {reqs : List (SpacingRequirement Time)}

variable {r : SpacingRequirement Time}

theorem pendingTotal_lt {d d' : Time} (h : d ≤ d')
    (hr : r ∈ reqs) {map : ZoneUses Time} (hmap : uses r.zone = some map)
    (hlt : pendingUses map r d' < pendingUses map r d) : pendingTotal uses reqs d' <
      pendingTotal uses reqs d := by
  refine sum_lt_sum _ _ (fun r _ => ?_) ⟨r, hr, ?_⟩
  · cases uses r.zone with
    | none => exact le_rfl
    | some map => exact pendingUses_antitone map r h
  · simpa [hmap] using hlt

theorem delayTurn_moved (hr : r ∈ reqs)
    (hlt : (r.beginTime : WithTop Time) < r.endTime) (st : WithTop Time × Bool) :
    Moved uses reqs [r] st (delayTurn uses st r) := by
  -- a turn that changes nothing
  have hstay : (∀ use ∈ usesOf uses r, ∀ d : Time, st.1 = d → ¬ Overlaps r d use) →
      Moved uses reqs [r] st st := by
    intro hfree
    have hrefl := @Moved.refl Time _ _ uses reqs st
    refine ⟨hrefl.le, hrefl.skips, fun _ => ⟨rfl, fun r' hr' => ?_⟩, hrefl.pending⟩
    rw [mem_singleton.mp hr']
    exact hfree
  obtain ⟨minDelay, flag⟩ := st
  cases hmap : uses r.zone with
  | none =>
    rw [delayTurn, hmap]
    exact hstay (by simp [usesOf, hmap])
  | some map =>
    have huses : usesOf uses r = map.ranges := by simp [usesOf, hmap]
    cases minDelay with
    | top =>
      rw [delayTurn, hmap]
      exact hstay fun _ _ d hd => absurd hd top_ne_coe
    | coe d =>
      have hspec := delayPast_spec map hlt d
      cases hpast : delayPast map r d with
      | none =>
        rw [hpast] at hspec
        have hturn : delayTurn uses ((d : WithTop Time), flag) r = (↑d, flag) := by
          simp only [delayTurn, hmap]
          exact hpast ▸ rfl
        rw [hturn]
        refine hstay fun use huse d' hd' => ?_
        obtain rfl := coe_inj.mp hd'
        exact hspec use (huses ▸ huse)
      | some e =>
        rw [hpast] at hspec
        obtain ⟨hde, hskip, hpending⟩ := hspec
        have hturn : delayTurn uses ((d : WithTop Time), flag) r = (e, true) := by
          simp only [delayTurn, hmap]
          exact hpast ▸ rfl
        rw [hturn]
        refine ⟨hde.le, fun x hx hxe hfree => ?_, by simp, fun d₁ d' hd₁ hd' => ?_⟩
        · obtain ⟨use, huse, hover⟩ := hskip x (coe_le_coe.mp hx) hxe
          exact hfree r hr use (huses ▸ huse) hover
        · obtain rfl := coe_inj.mp hd₁
          simp only at hd'
          have hle : d ≤ d' := by
            rw [hd', coe_lt_coe] at hde
            exact hde.le
          have hlt' := pendingTotal_lt hle hr hmap (hpending d' hd')
          exact ⟨hlt'.le, fun _ => .inr hlt'⟩

theorem foldl_delayTurn_moved : ∀ {rs : List (SpacingRequirement Time)}, (∀ r ∈ rs, r ∈ reqs) →
    (∀ r ∈ rs, (r.beginTime : WithTop Time) < r.endTime) → ∀ st : WithTop Time × Bool,
    Moved uses reqs rs st (rs.foldl (delayTurn uses) st)
  | [], _, _, st => Moved.refl st
  | r :: rs, hmem, hlt, st => by
    obtain ⟨hr, hmem⟩ := forall_mem_cons.mp hmem
    obtain ⟨hlt₁, hlt⟩ := forall_mem_cons.mp hlt
    exact (delayTurn_moved hr hlt₁ st).trans (foldl_delayTurn_moved hmem hlt _)

/-- The loop stops within its fuel, at the first conflict-free delay. -/
theorem delayLoop_spec (hlt : ∀ r ∈ reqs, (r.beginTime : WithTop Time) < r.endTime) :
    ∀ (fuel : ℕ) (d : Time), pendingTotal uses reqs d < fuel →
      ∃ r, delayLoop uses reqs fuel d = some r ∧ FirstFree (ConflictFree uses reqs) d r
  | fuel + 1, d, hfuel => by
    have hmoved := @foldl_delayTurn_moved Time _ _ _ uses reqs
      reqs (fun r hr => hr) hlt (d, false)
    rw [delayLoop, delayPass]
    generalize reqs.foldl (delayTurn uses) ((d : WithTop Time), false) =
      st' at hmoved
    obtain ⟨d', flag⟩ := st'
    cases flag with
    | false =>
      -- a whole pass without conflict
      obtain ⟨hd', hquiet⟩ := hmoved.quiet rfl
      obtain rfl : d' = d := congrArg Prod.fst hd'
      refine ⟨d, by simp, le_rfl, Skips.refl _ _, fun x hx => ?_⟩
      exact fun r hr use huse => hquiet r hr use huse x hx
    | true =>
      cases d' with
      | top =>
        exact ⟨⊤, by simp, hmoved.le, hmoved.skips, fun x hx => absurd hx top_ne_coe⟩
      | coe d' =>
        obtain ⟨-, hless⟩ := hmoved.pending d d' rfl rfl
        have hless' := (hless rfl).resolve_left (by simp)
        obtain ⟨r, hr, hfirst⟩ := delayLoop_spec hlt fuel d' (by omega)
        exact ⟨r, by simpa using hr, hmoved.skips.firstFree hmoved.le hfirst⟩

/-- Any fuel from `maxPasses` on gives the first conflict-free delay. -/
theorem minDelayWithoutConflicts_spec (hlt : ∀ r ∈ reqs, (r.beginTime : WithTop Time) < r.endTime) :
    ∃ r, minDelayWithoutConflicts uses reqs = some r ∧ (∀ fuel, maxPasses uses reqs ≤ fuel →
        delayLoop uses reqs fuel 0 = some r) ∧ FirstFree (ConflictFree uses reqs) (0 : Time) r := by
  have hpending := @pendingTotal_lt_maxPasses Time _ _ uses reqs 0
  obtain ⟨r, hr, hfirst⟩ := delayLoop_spec hlt _ 0 hpending
  refine ⟨r, hr, fun fuel hfuel => ?_, hfirst⟩
  obtain ⟨r', hr', hfirst'⟩ := delayLoop_spec hlt fuel 0 (hpending.trans_le hfuel)
  rw [hfirst.unique hfirst']
  exact hr'

end Pass

/-! ### The room left when there is no conflict -/

section Room

variable {uses : ParsedRequirements Time} {r : SpacingRequirement Time}

/-- The room of one requirement ends where it meets the first use that ends after its start. -/
theorem room_of_higherEntry (hr : (r.beginTime : WithTop Time) < r.endTime)
    (hfree : ∀ use ∈ usesOf uses r, ¬ Overlaps r 0 use) :
    match (uses r.zone).bind (·.higherEntry r.beginTime) with
    | none => Room uses [r] ⊤
    | some entry => ∃ m : Time, slack entry.lowerEndpoint r.endTime = ((m : WithTop Time)) ∧
        Room uses [r] m := by
  cases hmap : uses r.zone with
  | none => exact room_top (by simp [usesOf, hmap])
  | some map =>
    have huses : usesOf uses r = map.ranges := by simp [usesOf, hmap]
    rw [huses] at hfree
    have hclear := fun {d : Time} (hd : 0 ≤ d) =>
      @clear_of_higherEntry Time _ _ _ map r hr r.beginTime d (le_add_of_nonneg_left hd)
    have hspec := map.higherEntry_spec r.beginTime
    simp only [Option.bind_some]
    cases hentry : map.higherEntry r.beginTime with
    | none =>
      exact room_top fun d hd => huses ▸ hclear hd fun entry h => (nomatch hentry.symm.trans h)
    | some entry =>
      rw [hentry] at hspec
      obtain ⟨hmem, hkey, -⟩ := hspec
      -- at delay 0 the req ends before that use
      have hend : r.endTime ≤ entry.lowerEndpoint := by
        by_contra hlt
        refine hfree entry hmem ((overlaps_iff hr (map.nonempty entry hmem)).mpr ⟨?_, ?_⟩)
        · rwa [zero_add]
        · rw [coe_zero, zero_add]
          exact not_le.mp hlt
      obtain ⟨e, he⟩ := WithTop.ne_top_iff_exists.mp (ne_top_of_le_ne_top coe_ne_top hend)
      rw [← he, coe_le_coe] at hend
      have hbegin : r.beginTime < e := coe_lt_coe.mp (he ▸ hr)
      refine ⟨entry.lowerEndpoint - e, by rw [← he]; rfl,
        coe_le_coe.mpr (sub_nonneg.mpr hend), fun d hd => ⟨fun hle => ?_, fun hlt => ?_⟩⟩
      · intro r' hr' use huse hover
        rw [mem_singleton.mp hr'] at huse hover
        refine hclear hd (fun entry' h => ?_) use (huses ▸ huse) hover
        cases hentry.symm.trans h
        rw [← he, ← coe_add, coe_le_coe]
        exact le_sub_iff_add_le.mp (coe_le_coe.mp hle)
      · -- just past the room, the req still starts before that use
        rw [coe_lt_coe] at hlt
        have hroom : entry.lowerEndpoint - e < min d (entry.lowerEndpoint - r.beginTime) :=
          lt_min hlt (sub_lt_sub_left hbegin _)
        refine ⟨min d (entry.lowerEndpoint - r.beginTime), ?_, min_le_left _ _, r, by simp, entry,
          huses ▸ hmem, (overlaps_iff hr (map.nonempty entry hmem)).mpr ⟨?_, ?_⟩⟩
        · exact (sub_nonneg.mpr hend).trans hroom.le
        · refine lt_of_le_of_lt (coe_le_coe.mpr ?_) (map.nonempty entry hmem)
          exact le_sub_iff_add_le.mp (min_le_right _ _)
        · rw [← he, ← coe_add, coe_lt_coe]
          exact sub_lt_iff_lt_add.mp hroom

/-- `maxDelay` is the room of all the requirements. -/
theorem foldl_nextConflictTurn_room : ∀ {rs rs' : List (SpacingRequirement Time)} {m t : WithTop Time},
    (∀ r ∈ rs, (r.beginTime : WithTop Time) < r.endTime) →
    (∀ r ∈ rs, ∀ use ∈ usesOf uses r, ¬ Overlaps r 0 use) → Room uses rs' m → ∃ m' t' : WithTop Time,
      rs.foldl (nextConflictTurn uses) ((m : WithBot (WithTop Time)), t) = (↑m', t') ∧
      Room uses (rs' ++ rs) m'
  | [], rs', m, t, _, _, h => ⟨m, t, rfl, by simpa using h⟩
  | r :: rs, rs', m, t, hlt, hfree, h => by
    obtain ⟨hlt₁, hlt⟩ := forall_mem_cons.mp hlt
    obtain ⟨hfree₁, hfree⟩ := forall_mem_cons.mp hfree
    have hroom := room_of_higherEntry hlt₁ hfree₁
    rw [foldl_cons, nextConflictTurn]
    cases hentry : (uses r.zone).bind (·.higherEntry r.beginTime) with
    | none =>
      rw [hentry] at hroom
      have happ := h.append hroom
      rw [min_top_right] at happ
      obtain ⟨m', t', hfold, hall⟩ := @foldl_nextConflictTurn_room rs (rs' ++ [r]) m t hlt hfree happ
      exact ⟨m', t', hfold, by simpa using hall⟩
    | some entry =>
      rw [hentry] at hroom
      obtain ⟨s, hs, hroom⟩ := hroom
      obtain ⟨m', t', hfold, hall⟩ := @foldl_nextConflictTurn_room rs (rs' ++ [r]) (min m s)
        (min t entry.lowerEndpoint) hlt hfree (h.append hroom)
      refine ⟨m', t', ?_, by simpa using hall⟩
      rw [← hfold, WithBot.coe_min, ← hs]

/-- A conflict at delay 0 is found by its turn. -/
theorem earliestConflictTurn_isSome (hlt : (r.beginTime : WithTop Time) < r.endTime) {use : TimeRange Time}
    (huse : use ∈ usesOf uses r) (hover : Overlaps r 0 use)
    (res : Option (Time × ZoneId)) : (earliestConflictTurn uses res r).isSome := by
  cases hmap : uses r.zone with
  | none => simp [usesOf, hmap] at huse
  | some map =>
    have huse' : use ∈ map.ranges := by simpa [usesOf, hmap] using huse
    rw [overlaps_iff hlt (map.nonempty use huse'), zero_add, coe_zero, zero_add] at hover
    have hspec := map.higherEntry_spec r.beginTime
    rw [earliestConflictTurn, hmap, Option.bind_some]
    cases hentry : map.higherEntry r.beginTime with
    | none =>
      rw [hentry] at hspec
      exact absurd hover.1 (hspec use huse').not_gt
    | some entry =>
      rw [hentry] at hspec
      obtain ⟨hmem, -, hothers⟩ := hspec
      have hend : ¬ r.endTime < (entry.lowerEndpoint : WithTop Time) := by
        rcases hothers use huse' with hle | rfl | hup
        · exact absurd hover.1 hle.not_gt
        · exact hover.2.le.not_gt
        · exact not_lt.mpr (((map.nonempty entry hmem).trans_le hup).trans hover.2).le
      simp only [if_neg hend]
      split
      · rfl
      · split <;> rfl

variable {rs : List (SpacingRequirement Time)} (hlt : ∀ r ∈ rs, (r.beginTime : WithTop Time) < r.endTime)

include hlt in
theorem earliestConflictTime_isSome
    (hconflict : (0 : Time) ∉ ConflictFree uses rs) : (earliestConflictTime uses rs).isSome := by
  simp only [ConflictFree, Set.mem_ofPred_eq, not_forall, not_not] at hconflict
  obtain ⟨r, hr, use, huse, hover⟩ := hconflict
  obtain ⟨before, after, rfl⟩ := append_of_mem hr
  rw [earliestConflictTime, foldl_append, foldl_cons]
  exact foldl_earliestConflictTurn_isSome
    (earliestConflictTurn_isSome (hlt r hr) huse hover _)

include hlt in
/-- What `analyseConflicts` answers: the room when there is no conflict, else the first free delay. -/
theorem analyseConflicts_cases :
    (∃ m t : WithTop Time, analyseConflicts uses rs = some (.NoConflictResponse m t) ∧
      FirstFree (ConflictFree uses rs) (0 : Time) (0 : Time) ∧ FreeUntil (ConflictFree uses rs) 0 m) ∨
    ∃ r time zone, analyseConflicts uses rs = some (.ConflictResponse r time zone) ∧
      r ≠ 0 ∧ FirstFree (ConflictFree uses rs) (0 : Time) r := by
  obtain ⟨r, hr, -, hfirst⟩ := @minDelayWithoutConflicts_spec Time _ _ _ uses rs hlt
  by_cases hzero : r = 0
  · subst hzero
    have hfree := hfirst.free 0 rfl
    obtain ⟨m, t, hfold, hroom⟩ := @foldl_nextConflictTurn_room Time _ _ _ uses rs [] ⊤ ⊤ hlt hfree room_nil
    refine .inl ⟨m, t, ?_, hfirst, hroom.1, fun e he => ⟨fun hall => ?_, fun hle x hx hxe => ?_⟩⟩
    · have hnext : nextConflict uses rs = (↑m, t) := hfold
      simp [analyseConflicts, hr, hnext]
    · by_contra hlt'
      obtain ⟨x, hx, hxe, r, hr', use, huse, hover⟩ := (hroom.2 e he).2 (not_le.mp hlt')
      exact hall x hx hxe r hr' use huse hover
    · exact (hroom.2 x hx).1 ((coe_le_coe.mpr hxe).trans hle)
  · have hconflict : (0 : Time) ∉ ConflictFree uses rs := by
      refine hfirst.skips 0 le_rfl (lt_of_le_of_ne hfirst.le ?_)
      exact fun h => hzero h.symm
    obtain ⟨⟨time, zone⟩, hearliest⟩ :=
      Option.isSome_iff_exists.mp (earliestConflictTime_isSome hlt hconflict)
    refine .inr ⟨r, time, zone, ?_, hzero, hfirst⟩
    simp [analyseConflicts, hr, hzero, hearliest]

end Room

/-- The minimal delay is found, by any number of passes from `maxPasses` on, and is the least
    conflict-free one (infinite if there is none); when it is 0, `maxDelayWithoutConflicts` is the
    largest delay up to which every shift is conflict-free (infinite if they all are). -/
theorem analyseConflicts_delays (uses : ParsedRequirements Time) (reqs : List (SpacingRequirement Time))
    (hlt : ∀ r ∈ reqs, (r.beginTime : WithTop Time) < r.endTime) : ∃ minDelay : WithTop Time,
      minDelayWithoutConflicts uses reqs = some minDelay ∧ (∀ fuel, maxPasses uses reqs ≤ fuel →
        delayLoop uses reqs fuel 0 = some minDelay) ∧
      FirstFree (ConflictFree uses reqs) (0 : Time) minDelay ∧
      (minDelay = 0 → ∃ maxDelay timeOfNextConflict : WithTop Time, analyseConflicts uses reqs =
          some (.NoConflictResponse maxDelay timeOfNextConflict) ∧
        FreeUntil (ConflictFree uses reqs) 0 maxDelay) := by
  obtain ⟨minDelay, hmin, hloop, hfirst⟩ := @minDelayWithoutConflicts_spec Time _ _ _ uses reqs hlt
  refine ⟨minDelay, hmin, hloop, hfirst, ?_⟩
  rintro rfl
  rcases @analyseConflicts_cases Time _ _ _ uses reqs hlt with
    ⟨m, t, hresp, -, huntil⟩ | ⟨r, -, -, -, hne, hfirst'⟩
  · exact ⟨m, t, hresp, huntil⟩
  · exact absurd (hfirst'.unique hfirst) hne

end Delay

/-- Zone 0 is used on `[5, 10)` and `[12, 20)`. -/
def twoUses : ParsedRequirements ℤ := fun zone =>
  if zone = 0 then some ⟨[⟨5, (10 : ℤ)⟩, ⟨12, (20 : ℤ)⟩], by decide, by decide⟩ else none

/-- A requirement of `[6, 9)` has to wait until the second use is over, as it does not fit between. -/
theorem analyseConflicts_delays_twoUses :
    FirstFree (ConflictFree twoUses [⟨0, 6, (9 : ℤ), true⟩]) (0 : ℤ) (14 : ℤ) := by
  obtain ⟨minDelay, hmin, -, hfirst, -⟩ :=
    analyseConflicts_delays twoUses [⟨0, 6, (9 : ℤ), true⟩] (by decide)
  have hvalue : minDelayWithoutConflicts twoUses [⟨0, 6, (9 : ℤ), true⟩] =
      some ((14 : ℤ) : WithTop ℤ) := by decide
  rwa [Option.some.inj (hmin.symm.trans hvalue)] at hfirst

end Osrd.Conflicts
