import Osrd.Stdcm.BlockAvailability

/-! Model of `makeBlockAvailability` (`core/.../stdcm/preprocessing/implementation/BlockAvailability.kt`),
    from spacing requirements and from uses that are already merged.

    The uses of the other trains are widened by the grid margins: each requirement before the merge, or
    each merged range, which are then merged again. An instant is used after that iff a used one is within
    the margins (`widen_has`), so neither the order nor an earlier merge matters; and ranges that do not
    touch are determined by their instants (`ZoneUses.ext_has`). -/

namespace Osrd.Conflicts

open List (mem_cons_self pairwise_cons)

variable {Time : Type} [LinearOrder Time]

/-! ### Uses are determined by their instants -/

section Canonical

variable {r s : TimeRange Time} {rs ss : List (TimeRange Time)}

/-- The first range starts at the first instant, so not before another one that covers it. -/
theorem lowerEndpoint_le (hr : (r.lowerEndpoint : WithTop Time) < r.upperEndpoint)
    (hss : ∀ u ∈ s :: ss, (u.lowerEndpoint : WithTop Time) < u.upperEndpoint)
    (hapart : (s :: ss).Pairwise fun u v => u.upperEndpoint < v.lowerEndpoint)
    (h : ∀ t, (∃ u ∈ r :: rs, u.Has t) → ∃ u ∈ s :: ss, u.Has t) :
    s.lowerEndpoint ≤ r.lowerEndpoint := by
  obtain ⟨u, hu, hhas, -⟩ := h r.lowerEndpoint ⟨r, mem_cons_self, le_rfl, hr⟩
  rcases List.mem_cons.mp hu with rfl | hu
  · exact hhas
  · have hs := hss s mem_cons_self
    have hlt := hs.trans ((pairwise_cons.mp hapart).1 u hu)
    exact (WithTop.coe_lt_coe.mp hlt).le.trans hhas

/-- The instant at the end of the first range is not used. -/
theorem upperEndpoint_le (hs : (s.lowerEndpoint : WithTop Time) < s.upperEndpoint)
    (hapart : (s :: ss).Pairwise fun u v => u.upperEndpoint < v.lowerEndpoint)
    (hlower : r.lowerEndpoint = s.lowerEndpoint)
    (h : ∀ t, (∃ u ∈ r :: rs, u.Has t) → ∃ u ∈ s :: ss, u.Has t) :
    r.upperEndpoint ≤ s.upperEndpoint := by
  by_contra hlt
  rw [not_le] at hlt
  obtain ⟨e, he⟩ := WithTop.ne_top_iff_exists.mp hlt.ne_top
  rw [← he] at hs hlt
  have hhas : r.Has e := ⟨hlower ▸ (WithTop.coe_lt_coe.mp hs).le, hlt⟩
  obtain ⟨u, hu, hu_le, hu_lt⟩ := h e ⟨r, mem_cons_self, hhas⟩
  rcases List.mem_cons.mp hu with rfl | hu
  · exact absurd he hu_lt.ne
  · have hafter := (pairwise_cons.mp hapart).1 u hu
    rw [← he] at hafter
    exact absurd (WithTop.coe_lt_coe.mp hafter) hu_le.not_gt

/-- The instants of the other ranges are those after the end of the first one. -/
theorem has_tail_iff (hapart : (s :: ss).Pairwise fun u v => u.upperEndpoint < v.lowerEndpoint) (t : Time) :
    (∃ u ∈ ss, u.Has t) ↔ s.upperEndpoint < (t : WithTop Time) ∧ ∃ u ∈ s :: ss, u.Has t := by
  constructor
  · rintro ⟨u, hu, hhas⟩
    have hafter := (pairwise_cons.mp hapart).1 u hu
    exact ⟨hafter.trans_le (WithTop.coe_le_coe.mpr hhas.1), u, List.mem_cons_of_mem _ hu, hhas⟩
  · rintro ⟨hlater, u, hu, hhas⟩
    rcases List.mem_cons.mp hu with rfl | hu
    · exact absurd hhas.2 hlater.le.not_gt
    · exact ⟨u, hu, hhas⟩

theorem ranges_ext_has : ∀ {rs ss : List (TimeRange Time)},
    (∀ u ∈ rs, (u.lowerEndpoint : WithTop Time) < u.upperEndpoint) →
    (∀ u ∈ ss, (u.lowerEndpoint : WithTop Time) < u.upperEndpoint) →
    rs.Pairwise (fun u v => u.upperEndpoint < v.lowerEndpoint) →
    ss.Pairwise (fun u v => u.upperEndpoint < v.lowerEndpoint) →
    (∀ t, (∃ u ∈ rs, u.Has t) ↔ ∃ u ∈ ss, u.Has t) → rs = ss
  | [], [], _, _, _, _, _ => rfl
  | [], s :: ss, _, hss, _, _, h => by
    have hs := hss s mem_cons_self
    simpa using (h s.lowerEndpoint).mpr ⟨s, mem_cons_self, le_rfl, hs⟩
  | r :: rs, [], hrs, _, _, _, h => by
    have hr := hrs r mem_cons_self
    simpa using (h r.lowerEndpoint).mp ⟨r, mem_cons_self, le_rfl, hr⟩
  | r :: rs, s :: ss, hrs, hss, hapart, hapart', h => by
    have hr := hrs r mem_cons_self
    have hs := hss s mem_cons_self
    have hlower : r.lowerEndpoint = s.lowerEndpoint :=
      le_antisymm (lowerEndpoint_le hs hrs hapart fun t => (h t).mpr)
        (lowerEndpoint_le hr hss hapart' fun t => (h t).mp)
    have hupper : r.upperEndpoint = s.upperEndpoint :=
      le_antisymm (upperEndpoint_le hs hapart' hlower fun t => (h t).mp)
        (upperEndpoint_le hr hapart hlower.symm fun t => (h t).mpr)
    have htail : rs = ss := by
      refine ranges_ext_has (List.forall_mem_cons.mp hrs).2
        (List.forall_mem_cons.mp hss).2 hapart.tail hapart'.tail fun t => ?_
      rw [has_tail_iff hapart, has_tail_iff hapart', hupper, h t]
    obtain ⟨l, u⟩ := r
    simp only at hlower hupper
    rw [hlower, hupper, htail]

/-- Uses that do not touch are determined by their instants. -/
theorem ZoneUses.ext_has {map map' : ZoneUses Time} (hmap : map.Merged) (hmap' : map'.Merged)
    (h : ∀ t, (∃ r ∈ map.ranges, r.Has t) ↔ ∃ r ∈ map'.ranges, r.Has t) : map = map' := by
  have hranges := ranges_ext_has map.nonempty map'.nonempty hmap hmap' h
  cases map
  cases map'
  simpa using hranges

/-- The uses of no zone touch each other. -/
def ParsedRequirements.Merged (p : ParsedRequirements Time) : Prop :=
  ∀ zone map, p zone = some map → map.Merged

theorem ParsedRequirements.ext_usedAt {p q : ParsedRequirements Time} (hp : p.Merged) (hq : q.Merged)
    (hzones : ∀ zone, (p zone).isSome ↔ (q zone).isSome)
    (hused : ∀ zone t, UsedAt p zone t ↔ UsedAt q zone t) : p = q := by
  funext zone
  have hzones := hzones zone
  have hused := hused zone
  cases hmap : p zone with
  | none =>
    rw [hmap] at hzones
    exact (Option.not_isSome_iff_eq_none.mp fun hsome => by simpa using hzones.mpr hsome).symm
  | some map =>
    rw [hmap] at hzones
    obtain ⟨map', hmap'⟩ := Option.isSome_iff_exists.mp (hzones.mp rfl)
    have heq : map = map' := ZoneUses.ext_has (hp zone map hmap) (hq zone map' hmap') fun t => by
      simpa [UsedAt, hmap, hmap'] using hused t
    rw [hmap', heq]

end Canonical

/-! ### The zones of the requirements -/

variable (rangeSet : TreeRangeSet Time) {rangeSets : ParsedRequirements Time}

theorem getD_empty_merged (h : rangeSets.Merged)
    (zone : ZoneId) : ((rangeSets zone).getD .empty).Merged := by
  cases hzone : rangeSets zone with
  | none => exact ZoneUses.empty_merged
  | some map => exact h zone map hzone

theorem update_merged (h : rangeSets.Merged) {zone : ZoneId} {set : ZoneUses Time} (hset : set.Merged) :
    ParsedRequirements.Merged (Function.update rangeSets zone (some set)) := by
  intro z map hmap
  by_cases hz : z = zone
  · subst hz
    rw [Function.update_self] at hmap
    exact Option.some.inj hmap ▸ hset
  · rw [Function.update_of_ne hz] at hmap
    exact h z map hmap

theorem addSpacingRequirement_merged {rangeSets rangeSets' : ParsedRequirements Time}
    {r : SpacingRequirement Time} (h : rangeSets.Merged)
    (hadd : addSpacingRequirement rangeSet rangeSets r = some rangeSets') : rangeSets'.Merged := by
  have hset := getD_empty_merged h r.zone
  simp only [addSpacingRequirement] at hadd
  split at hadd
  · exact Option.some.inj hadd ▸ update_merged h (rangeSet.merged hset)
  · split at hadd
    · exact Option.some.inj hadd ▸ update_merged h hset
    · cases hadd

theorem foldlM_addSpacingRequirement_merged : ∀ {rs : List (SpacingRequirement Time)}
    {rangeSets rangeSets' : ParsedRequirements Time}, rangeSets.Merged →
    rs.foldlM (addSpacingRequirement rangeSet) rangeSets = some rangeSets' → rangeSets'.Merged
  | [], rangeSets, rangeSets', h, hfold => by
    obtain rfl : rangeSets = rangeSets' := by simpa using hfold
    exact h
  | r :: rs, rangeSets, rangeSets', h, hfold => by
    rw [List.foldlM_cons, Option.bind_eq_bind, Option.bind_eq_some_iff] at hfold
    obtain ⟨mid, hmid, hrest⟩ := hfold
    exact foldlM_addSpacingRequirement_merged (addSpacingRequirement_merged rangeSet h hmid) hrest

/-- No range is reversed: nothing throws, and the zones are those of the requirements. -/
theorem foldlM_addSpacingRequirement_isSome : ∀ {rs : List (SpacingRequirement Time)},
    (∀ r ∈ rs, (r.beginTime : WithTop Time) < r.endTime) → ∀ rangeSets : ParsedRequirements Time,
    ∃ rangeSets', rs.foldlM (addSpacingRequirement rangeSet) rangeSets = some rangeSets' ∧
      ∀ zone, (rangeSets' zone).isSome ↔ (rangeSets zone).isSome ∨ ∃ r ∈ rs, r.zone = zone
  | [], _, rangeSets => ⟨rangeSets, rfl, by simp⟩
  | r :: rs, hall, rangeSets => by
    obtain ⟨hr, hall⟩ := List.forall_mem_cons.mp hall
    obtain ⟨rangeSets', hfold, hzones⟩ := foldlM_addSpacingRequirement_isSome hall
      (Function.update rangeSets r.zone
        (some (rangeSet.add ((rangeSets r.zone).getD .empty) ⟨r.beginTime, r.endTime⟩ hr)))
    refine ⟨rangeSets', ?_, fun zone => ?_⟩
    · simpa [addSpacingRequirement, hr] using hfold
    · rw [hzones]
      by_cases hzone : zone = r.zone
      · simp [hzone]
      · simp [hzone, Ne.symm hzone]

/-- All the spacing requirements. -/
def allSpacing (requirements : List (Requirements Time)) : List (SpacingRequirement Time) :=
  requirements.flatMap (·.spacingRequirements)

/-- The uses are those of the requirements, for requirements that end after they begin. -/
theorem generateSpacingZoneUses_spec {reqs : List (Requirements Time)}
    (h : ∀ r ∈ allSpacing reqs, (r.beginTime : WithTop Time) < r.endTime) :
    ∃ parsed, generateSpacingZoneUses rangeSet reqs = some parsed ∧ parsed.Merged ∧
      (∀ zone, (parsed zone).isSome ↔ ∃ r ∈ allSpacing reqs, r.zone = zone) ∧
      ∀ zone t, UsedAt parsed zone t ↔ ∃ r ∈ allSpacing reqs, r.Needs zone t := by
  rw [generateSpacingZoneUses_eq]
  obtain ⟨parsed, hfold, hzones⟩ := foldlM_addSpacingRequirement_isSome rangeSet h fun _ => none
  refine ⟨parsed, hfold, foldlM_addSpacingRequirement_merged rangeSet (fun _ _ h => by simp at h) hfold,
    fun zone => by simpa using hzones zone, fun zone t => ?_⟩
  rw [foldlM_addSpacingRequirement_usedAt rangeSet zone t hfold]
  simp [UsedAt]

end Osrd.Conflicts

namespace Osrd.Stdcm

open Conflicts List
open WithTop hiding some

/-! ### Widening -/

/-- What is kept free around the train. The source takes two numbers; a negative one can make a range
    end before it begins. -/
structure GridMargins (Time : Type) [LinearOrder Time] [Zero Time] where
  gridMarginBeforeTrain : Time
  gridMarginAfterTrain : Time
  before_nonneg : 0 ≤ gridMarginBeforeTrain
  after_nonneg : 0 ≤ gridMarginAfterTrain

namespace GridMargins

variable {Time : Type} [LinearOrder Time] [AddCommGroup Time] (m : GridMargins Time)

/-- The margin after the new train comes before the uses of the others. -/
def widen (range : TimeRange Time) : TimeRange Time :=
  ⟨range.lowerEndpoint - m.gridMarginAfterTrain, range.upperEndpoint + m.gridMarginBeforeTrain⟩

def widenRequirement (r : SpacingRequirement Time) : SpacingRequirement Time :=
  ⟨r.zone, r.beginTime - m.gridMarginAfterTrain, r.endTime + m.gridMarginBeforeTrain, r.isComplete⟩

/-- The requirements that are merged; without margins they are the given ones. -/
def widenAll (spacingRequirements : List (SpacingRequirement Time)) : List (SpacingRequirement Time) :=
  if m.gridMarginAfterTrain ≠ 0 ∨ m.gridMarginBeforeTrain ≠ 0 then
    spacingRequirements.map m.widenRequirement
  else spacingRequirements

/-- `t` is close enough to the instant `s` to be kept free for it. -/
def Within (s t : Time) : Prop :=
  s - m.gridMarginAfterTrain ≤ t ∧ t ≤ s + m.gridMarginBeforeTrain

variable {m}

theorem within_of_zero (hafter : m.gridMarginAfterTrain = 0) (hbefore : m.gridMarginBeforeTrain = 0)
    {s t : Time} : m.Within s t ↔ s = t := by
  rw [Within, hafter, hbefore, sub_zero, add_zero, and_comm, ← le_antisymm_iff, eq_comm]

variable {rs : List (SpacingRequirement Time)}

theorem widenAll_zone (zone : ZoneId) :
    (∃ r ∈ m.widenAll rs, r.zone = zone) ↔ ∃ r ∈ rs, r.zone = zone := by
  rw [widenAll]
  split
  · simp [widenRequirement]
  · rfl

variable [IsOrderedAddMonoid Time]

variable {range : TimeRange Time} (h : (range.lowerEndpoint : WithTop Time) < range.upperEndpoint)

include h in
theorem widen_nonempty :
    ((m.widen range).lowerEndpoint : WithTop Time) < (m.widen range).upperEndpoint := by
  have hlower : ((m.widen range).lowerEndpoint : WithTop Time) ≤ range.lowerEndpoint :=
    coe_le_coe.mpr (sub_le_self _ m.after_nonneg)
  have hupper : range.upperEndpoint ≤ (m.widen range).upperEndpoint :=
    le_add_of_nonneg_right (coe_le_coe.mpr m.before_nonneg)
  exact hlower.trans_lt (h.trans_le hupper)

include h in
/-- A widened range is made of the instants within the margins of one of its own. -/
theorem widen_has (t : Time) : (m.widen range).Has t ↔ ∃ s, range.Has s ∧ m.Within s t := by
  obtain ⟨lower, upper⟩ := range
  simp only [widen] at h ⊢
  constructor
  · rintro ⟨hlower, hupper⟩
    -- the first instant of the range whose margin reaches `t`
    refine ⟨max lower (t - m.gridMarginBeforeTrain), ⟨le_max_left _ _, ?_⟩, ?_, ?_⟩
    · rw [coe_max]
      refine max_lt h ?_
      cases upper with
      | top => exact coe_lt_top _
      | coe upper =>
        rw [← coe_add, coe_lt_coe] at hupper
        exact coe_lt_coe.mpr (sub_lt_iff_lt_add.mpr hupper)
    · have hback : t - m.gridMarginBeforeTrain ≤ t + m.gridMarginAfterTrain :=
        (sub_le_self t m.before_nonneg).trans (le_add_of_nonneg_right m.after_nonneg)
      exact sub_le_iff_le_add.mpr (max_le (sub_le_iff_le_add.mp hlower) hback)
    · exact sub_le_iff_le_add.mp (le_max_right _ _)
  · rintro ⟨s, ⟨hlower, hupper⟩, hafter, hbefore⟩
    refine ⟨(sub_le_sub_right hlower _).trans hafter, ?_⟩
    have hlt : ((s + m.gridMarginBeforeTrain : Time) : WithTop Time) <
        upper + m.gridMarginBeforeTrain := by
      exact WithTop.add_lt_add_right coe_ne_top hupper
    exact (coe_le_coe.mpr hbefore).trans_lt hlt

variable (rangeSet : TreeRangeSet Time)

/-- A merged range, widened and added to the set. -/
def addWidened (m : GridMargins Time) (map set : ZoneUses Time) (range : {r // r ∈ map.ranges}) :
    ZoneUses Time :=
  rangeSet.add set (m.widen range.1) (widen_nonempty (map.nonempty range.1 range.2))

/-- The merged ranges of one zone, widened and merged again. -/
def widenUses (m : GridMargins Time) (map : ZoneUses Time) : ZoneUses Time :=
  map.ranges.attach.foldl (m.addWidened rangeSet map) .empty

theorem widenUses_merged (map : ZoneUses Time) : (m.widenUses rangeSet map).Merged := by
  have hfold : ∀ (ranges : List {r // r ∈ map.ranges}) (set : ZoneUses Time), set.Merged →
      (ranges.foldl (m.addWidened rangeSet map) set).Merged := by
    intro ranges
    induction ranges with
    | nil => exact fun _ h => h
    | cons r ranges ih => exact fun set h => ih _ (rangeSet.merged h)
  exact hfold _ _ ZoneUses.empty_merged

theorem widenUses_has (map : ZoneUses Time) (t : Time) :
    (∃ r ∈ (m.widenUses rangeSet map).ranges, r.Has t) ↔ ∃ s, (∃ r ∈ map.ranges, r.Has s) ∧
      m.Within s t := by
  have hfold : ∀ (ranges : List {r // r ∈ map.ranges}) (set : ZoneUses Time),
      (∃ r ∈ (ranges.foldl (m.addWidened rangeSet map) set).ranges, r.Has t) ↔
      (∃ r ∈ set.ranges, r.Has t) ∨ ∃ r ∈ ranges, (m.widen r.1).Has t := by
    intro ranges
    induction ranges with
    | nil => simp
    | cons r ranges ih =>
      intro set
      rw [foldl_cons, ih, addWidened, rangeSet.has]
      simp only [mem_cons, exists_eq_or_imp]
      rw [← or_assoc, or_comm (a := (m.widen r.1).Has t)]
  rw [widenUses, hfold]
  simp only [ZoneUses.empty, not_mem_nil, false_and, exists_false, false_or]
  constructor
  · rintro ⟨⟨r, hr⟩, -, hhas⟩
    obtain ⟨s, hs, hwithin⟩ := (widen_has (map.nonempty r hr) t).mp hhas
    exact ⟨s, ⟨r, hr, hs⟩, hwithin⟩
  · rintro ⟨s, ⟨r, hr, hs⟩, hwithin⟩
    exact ⟨⟨r, hr⟩, mem_attach _ _, (widen_has (map.nonempty r hr) t).mpr ⟨s, hs, hwithin⟩⟩

theorem widenRequirement_needs {r : SpacingRequirement Time}
    (h : (r.beginTime : WithTop Time) < r.endTime) (zone : ZoneId) (t : Time) :
    (m.widenRequirement r).Needs zone t ↔ ∃ s, r.Needs zone s ∧ m.Within s t := by
  have hhas : (m.widen ⟨r.beginTime, r.endTime⟩).Has t ↔
      ∃ s, TimeRange.Has ⟨r.beginTime, r.endTime⟩ s ∧ m.Within s t := widen_has h t
  constructor
  · rintro ⟨hzone, hneeds⟩
    obtain ⟨s, hs, hwithin⟩ := hhas.mp hneeds
    exact ⟨s, ⟨hzone, hs⟩, hwithin⟩
  · rintro ⟨s, ⟨hzone, hs⟩, hwithin⟩
    exact ⟨hzone, hhas.mpr ⟨s, hs, hwithin⟩⟩

/-- The merged uses with the margins; without margins they are the given ones. -/
def widenParsed (m : GridMargins Time) (parsedRequirements : ParsedRequirements Time) :
    ParsedRequirements Time :=
  if m.gridMarginAfterTrain ≠ 0 ∨ m.gridMarginBeforeTrain ≠ 0 then
    fun zoneId => (parsedRequirements zoneId).map (m.widenUses rangeSet)
  else parsedRequirements

theorem widenAll_lt (h : ∀ r ∈ rs, (r.beginTime : WithTop Time) < r.endTime) :
    ∀ r ∈ m.widenAll rs, (r.beginTime : WithTop Time) < r.endTime := by
  intro r' hr'
  rw [widenAll] at hr'
  split at hr'
  · obtain ⟨r, hr, rfl⟩ := mem_map.mp hr'
    have hrange : ((⟨r.beginTime, r.endTime⟩ : TimeRange Time).lowerEndpoint : WithTop Time) <
        (⟨r.beginTime, r.endTime⟩ : TimeRange Time).upperEndpoint := h r hr
    exact widen_nonempty hrange
  · exact h r' hr'

theorem widenAll_needs (h : ∀ r ∈ rs, (r.beginTime : WithTop Time) < r.endTime) (zone : ZoneId) (t : Time) :
    (∃ r ∈ m.widenAll rs, r.Needs zone t) ↔ ∃ s, (∃ r ∈ rs, r.Needs zone s) ∧ m.Within s t := by
  rw [widenAll]
  split
  · simp only [mem_map, exists_exists_and_eq_and]
    constructor
    · rintro ⟨r, hr, hneeds⟩
      obtain ⟨s, hs, hwithin⟩ := (widenRequirement_needs (h r hr) zone t).mp hneeds
      exact ⟨s, ⟨r, hr, hs⟩, hwithin⟩
    · rintro ⟨s, ⟨r, hr, hs⟩, hwithin⟩
      exact ⟨r, hr, (widenRequirement_needs (h r hr) zone t).mpr ⟨s, hs, hwithin⟩⟩
  · next hzero =>
    obtain ⟨hafter, hbefore⟩ := not_or.mp hzero
    simp [within_of_zero (not_not.mp hafter) (not_not.mp hbefore)]

variable (parsed : ParsedRequirements Time) (zone : ZoneId)

theorem widenParsed_isSome : (m.widenParsed rangeSet parsed zone).isSome = (parsed zone).isSome := by
  rw [widenParsed]
  split
  · exact Option.isSome_map
  · rfl

theorem widenParsed_merged {parsed : ParsedRequirements Time} (h : parsed.Merged) :
    (m.widenParsed rangeSet parsed).Merged := by
  intro zone map hmap
  rw [widenParsed] at hmap
  split at hmap
  · obtain ⟨map', -, rfl⟩ := Option.map_eq_some_iff.mp hmap
    exact widenUses_merged rangeSet map'
  · exact h zone map hmap

theorem widenParsed_usedAt (t : Time) :
    UsedAt (m.widenParsed rangeSet parsed) zone t ↔ ∃ s, UsedAt parsed zone s ∧ m.Within s t := by
  rw [widenParsed]
  split
  · cases hzone : parsed zone with
    | none => simp [UsedAt, hzone]
    | some map => simpa [UsedAt, hzone] using widenUses_has rangeSet map t
  · next hzero =>
    obtain ⟨hafter, hbefore⟩ := not_or.mp hzero
    simp [within_of_zero (not_not.mp hafter) (not_not.mp hbefore)]

end GridMargins

/-! ### The availability -/

section Make

variable (rangeSet : TreeRangeSet ℚ) (margins : GridMargins ℚ) (timeStep : ℚ)
  (metadata : Option (ZoneId → Option (List DetailedRequirement)))
variable (inputSpacingRequirements : List (SpacingRequirement ℚ))

/-- `makeBlockAvailability` on the requirements; `none` is an exception. -/
def makeBlockAvailability : Option BlockAvailability :=
  let requirements : List (Requirements ℚ) := [⟨⟨"0", .TRAIN⟩, margins.widenAll inputSpacingRequirements⟩]
  (generateSpacingZoneUses rangeSet requirements).map fun uses => ⟨uses, timeStep, metadata⟩

/-- `makeBlockAvailability` on the merged uses. -/
def makeBlockAvailabilityOfParsed (parsedRequirements : ParsedRequirements ℚ) : BlockAvailability :=
  ⟨margins.widenParsed rangeSet parsedRequirements, timeStep, metadata⟩

/-- The availability is the same from the requirements and from the uses merged beforehand, however the
    requirements were shared between the trains. -/
theorem makeBlockAvailability_eq_ofParsed
    (reqs : List (Requirements ℚ)) (hsame : ∀ r, r ∈ allSpacing reqs ↔ r ∈ inputSpacingRequirements)
    (hlt : ∀ r ∈ inputSpacingRequirements, (r.beginTime : WithTop ℚ) < r.endTime) :
    ∃ parsed, generateSpacingZoneUses rangeSet reqs = some parsed ∧
      makeBlockAvailability rangeSet margins timeStep metadata inputSpacingRequirements =
        some (makeBlockAvailabilityOfParsed rangeSet margins timeStep metadata parsed) := by
  obtain ⟨parsed, hparsed, hmerged, hzones, hused⟩ :=
    generateSpacingZoneUses_spec rangeSet fun r hr => hlt r ((hsame r).mp hr)
  have hwiden : allSpacing [⟨⟨"0", .TRAIN⟩, margins.widenAll inputSpacingRequirements⟩] =
      margins.widenAll inputSpacingRequirements := by simp [allSpacing]
  obtain ⟨uses, huses, hmerged', hzones', hused'⟩ := generateSpacingZoneUses_spec rangeSet
    (hwiden ▸ GridMargins.widenAll_lt hlt)
  simp only [hwiden, GridMargins.widenAll_zone, GridMargins.widenAll_needs hlt] at hzones' hused'
  simp only [hsame] at hzones hused
  have heq : uses = margins.widenParsed rangeSet parsed := by
    refine ParsedRequirements.ext_usedAt hmerged' (GridMargins.widenParsed_merged rangeSet hmerged)
      (fun zone => ?_) fun zone t => ?_
    · rw [hzones', GridMargins.widenParsed_isSome, hzones]
    · rw [hused', GridMargins.widenParsed_usedAt]
      simp only [hused]
  refine ⟨parsed, hparsed, ?_⟩
  rw [makeBlockAvailability, huses, heq]
  rfl

theorem makeBlockAvailability_eq_ofParsed_two_trains :
    ∃ parsed, generateSpacingZoneUses .inserting [⟨⟨"1", .TRAIN⟩, [⟨7, 0, (10 : ℚ), true⟩]⟩,
        ⟨⟨"2", .TRAIN⟩, [⟨7, 12, (20 : ℚ), true⟩]⟩] = some parsed ∧
      makeBlockAvailability .inserting ⟨1, 2, by decide, by decide⟩ 2 none
        [⟨7, 12, (20 : ℚ), true⟩, ⟨7, 0, (10 : ℚ), true⟩] =
          some (makeBlockAvailabilityOfParsed .inserting ⟨1, 2, by decide, by decide⟩ 2 none parsed) :=
  makeBlockAvailability_eq_ofParsed _ _ _ _ _ _
    (fun r => by simpa [allSpacing] using or_comm)
    (by decide)

/-! ### A new train -/

open LeastFree

variable (timetable train : List (SpacingRequirement ℚ))

/-- The delays at which a new train needs no zone within the margins of a use of it. -/
def keptApart : Set ℚ :=
  {d | ∀ r ∈ train, ∀ t, d + r.beginTime ≤ t → (t : WithTop ℚ) < d + r.endTime →
    ∀ r' ∈ timetable, ∀ s, r'.Needs r.zone s → ¬ margins.Within s t}

/-- The delay found for a new train is the least that keeps it apart from the timetable. -/
theorem analyseConflicts_keptApart (hlt : ∀ r ∈ timetable ++ train, (r.beginTime : WithTop ℚ) < r.endTime) :
    ∃ b, makeBlockAvailability rangeSet margins timeStep metadata timetable = some b ∧
      ((∃ m t : WithTop ℚ, analyseConflicts b.spacingZoneUses train = some (.NoConflictResponse m t) ∧
          FreeUntil (keptApart margins timetable train) 0 m) ∨
        ∃ r time zone, analyseConflicts b.spacingZoneUses train = some (.ConflictResponse r time zone) ∧
          r ≠ 0 ∧ FirstFree (keptApart margins timetable train) (0 : ℚ) r) := by
  obtain ⟨htimetable, htrain⟩ := forall_mem_append.mp hlt
  have hwiden : allSpacing [⟨⟨"0", .TRAIN⟩, margins.widenAll timetable⟩] = margins.widenAll timetable := by
    simp [allSpacing]
  obtain ⟨uses, huses, -, -, hused⟩ :=
    generateSpacingZoneUses_spec rangeSet (hwiden ▸ GridMargins.widenAll_lt htimetable)
  simp only [hwiden, GridMargins.widenAll_needs htimetable] at hused
  have hzone : ∀ r t, (∃ use ∈ usesOf uses r, use.Has t) ↔
      ∃ s, (∃ r' ∈ timetable, r'.Needs r.zone s) ∧ margins.Within s t := fun r t => by
    rw [← hused, UsedAt, usesOf]
    cases uses r.zone <;> simp
  have hfree : keptApart margins timetable train = ConflictFree uses train := by
    ext d
    constructor
    · rintro h r hr use huse ⟨t, ⟨hbegin, hend⟩, hhas⟩
      obtain ⟨s, ⟨r', hr', hneeds⟩, hwithin⟩ := (hzone r t).mp ⟨use, huse, hhas⟩
      exact h r hr t hbegin hend r' hr' s hneeds hwithin
    · intro h r hr t hbegin hend r' hr' s hneeds hwithin
      obtain ⟨use, huse, hhas⟩ := (hzone r t).mpr ⟨s, ⟨r', hr', hneeds⟩, hwithin⟩
      exact h r hr use huse ⟨t, ⟨hbegin, hend⟩, hhas⟩
  refine ⟨⟨uses, timeStep, metadata⟩, by rw [makeBlockAvailability, huses]; rfl, ?_⟩
  rw [hfree]
  rcases @analyseConflicts_cases ℚ _ _ _ uses train htrain with ⟨m, t, hresponse, -, huntil⟩ | hconflict
  · exact .inl ⟨m, t, hresponse, huntil⟩
  · exact .inr hconflict

end Make

/-- A train 1 s behind another one, with a margin of 2 s. -/
theorem analyseConflicts_keptApart_follow : ∃ b,
    makeBlockAvailability .inserting ⟨2, 1, by decide, by decide⟩ 2 none [⟨7, 0, (10 : ℚ), true⟩] = some b ∧
      (analyseConflicts b.spacingZoneUses [⟨7, 11, (20 : ℚ), true⟩]).isSome := by
  obtain ⟨b, hb, ⟨m, t, h, -⟩ | ⟨r, time, zone, h, -⟩⟩ := analyseConflicts_keptApart
    .inserting ⟨2, 1, by decide, by decide⟩ 2 none [⟨7, 0, (10 : ℚ), true⟩] [⟨7, 11, (20 : ℚ), true⟩]
      (by decide)
  · exact ⟨b, hb, by rw [h]; rfl⟩
  · exact ⟨b, hb, by rw [h]; rfl⟩

end Osrd.Stdcm
