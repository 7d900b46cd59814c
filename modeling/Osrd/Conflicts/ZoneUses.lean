import Osrd.Conflicts.Groups

/-! The uses of each zone by the timetable (`core/.../conflicts/IncrementalConflictDetector.kt`,
    `generateSpacingZoneUses`).

    The spacing requirements of a zone are collected in a range set and then in a `TreeMap` keyed by end
    time. Both are one list of disjoint half-open ranges here, in increasing order; those of a range set do
    not even touch (`Merged`). Times are exact; an end time may be infinite, so it lies in
    `WithTop Time`. -/

namespace Osrd.Conflicts

open List

abbrev ZoneId := ℕ

/-- A half-open range of times (`Range.closedOpen`). -/
structure TimeRange (Time : Type) where
  lowerEndpoint : Time
  upperEndpoint : WithTop Time

/-- The requirement of a zone by a train. -/
structure SpacingRequirement (Time : Type) where
  zone : ZoneId
  beginTime : Time
  endTime : WithTop Time
  isComplete : Bool

variable {Time : Type} [LinearOrder Time]

/-- The uses of one zone: disjoint non-empty ranges in increasing order. -/
structure ZoneUses (Time : Type) [LinearOrder Time] where
  ranges : List (TimeRange Time)
  nonempty : ∀ r ∈ ranges, (r.lowerEndpoint : WithTop Time) < r.upperEndpoint
  disjoint : ranges.Pairwise fun r s => r.upperEndpoint ≤ s.lowerEndpoint

/-- The uses do not even touch, as those of a range set. -/
def ZoneUses.Merged (map : ZoneUses Time) : Prop :=
  map.ranges.Pairwise fun r s => r.upperEndpoint < s.lowerEndpoint

/-- Zone to (end time to range): a `TreeMap` sorted by end time. -/
abbrev ParsedRequirements (Time : Type) [LinearOrder Time] := ZoneId → Option (ZoneUses Time)

/-- `TreeMap.higherEntry`: the entry with the least end time above the key. -/
def ZoneUses.higherEntry (map : ZoneUses Time) (key : Time) : Option (TimeRange Time) :=
  map.ranges.find? fun r => (key : WithTop Time) < r.upperEndpoint

/-- What `higherEntry` says about all the uses of the zone. -/
theorem ZoneUses.higherEntry_spec (map : ZoneUses Time) (key : Time) :
    match map.higherEntry key with
    | none => ∀ use ∈ map.ranges, use.upperEndpoint ≤ key
    | some entry => entry ∈ map.ranges ∧ (key : WithTop Time) < entry.upperEndpoint ∧
        ∀ use ∈ map.ranges, use.upperEndpoint ≤ key ∨ use = entry ∨
          entry.upperEndpoint ≤ use.lowerEndpoint := by
  obtain ⟨ranges, hnonempty, hdisjoint⟩ := map
  simp only [higherEntry]
  cases hfind : ranges.find? fun r => (key : WithTop Time) < r.upperEndpoint with
  | none => simpa using hfind
  | some entry =>
    obtain ⟨hentry, before, after, rfl, hbefore⟩ := find?_eq_some_iff_append.mp hfind
    refine ⟨by simp, by simpa using hentry, fun use huse => ?_⟩
    rcases mem_append.mp huse with huse | huse
    · exact .inl (by simpa using hbefore use huse)
    rcases mem_cons.mp huse with rfl | huse
    · exact .inr (.inl rfl)
    · exact .inr (.inr ((pairwise_cons.mp (pairwise_append.mp hdisjoint).2.1).1 use huse))

/-! ### Range sets -/

/-- The instant lies in the half-open range. -/
def TimeRange.Has (range : TimeRange Time) (t : Time) : Prop :=
  range.lowerEndpoint ≤ t ∧ (t : WithTop Time) < range.upperEndpoint

/-- Guava's `TreeRangeSet` of half-open ranges, whichever way it keeps them. -/
structure TreeRangeSet (Time : Type) [LinearOrder Time] where
  add (set : ZoneUses Time) (range : TimeRange Time)
    (h : (range.lowerEndpoint : WithTop Time) < range.upperEndpoint) : ZoneUses Time
  /-- No two ranges of the set touch. -/
  merged : ∀ {set range h}, set.Merged → (add set range h).Merged
  /-- `add` is the union of the sets of instants. -/
  has : ∀ {set range h} (t), (∃ r ∈ (add set range h).ranges, r.Has t) ↔
    range.Has t ∨ ∃ r ∈ set.ranges, r.Has t

/-- A range put among sorted ones. -/
def insertRange : TimeRange Time → List (TimeRange Time) → List (TimeRange Time)
  | range, [] => [range]
  | range, r :: ranges =>
      if r.upperEndpoint < range.lowerEndpoint then r :: insertRange range ranges
      else if range.upperEndpoint < r.lowerEndpoint then range :: r :: ranges
      else insertRange ⟨min r.lowerEndpoint range.lowerEndpoint,
        max r.upperEndpoint range.upperEndpoint⟩ ranges

/-- What holds of the range and of the others, and of two ranges merged, holds of all of them after. -/
theorem insertRange_forall {P : TimeRange Time → Prop} (hmerge : ∀ r s, P r → P s →
      P ⟨min r.lowerEndpoint s.lowerEndpoint, max r.upperEndpoint s.upperEndpoint⟩) :
    ∀ {ranges : List (TimeRange Time)} {range : TimeRange Time}, P range → (∀ r ∈ ranges, P r) →
      ∀ r ∈ insertRange range ranges, P r
  | [], range, hrange, _, r, hr => mem_singleton.mp hr ▸ hrange
  | s :: ranges, range, hrange, hall, r, hr => by
    obtain ⟨hs, htail⟩ := forall_mem_cons.mp hall
    rw [insertRange] at hr
    split at hr
    · rcases mem_cons.mp hr with rfl | hr
      · exact hs
      · exact insertRange_forall hmerge hrange htail r hr
    · split at hr
      · rcases mem_cons.mp hr with rfl | hr
        · exact hrange
        · exact hall r hr
      · exact insertRange_forall hmerge (hmerge s range hs hrange) htail r hr

variable {range : TimeRange Time} {ranges : List (TimeRange Time)}

theorem insertRange_nonempty (hrange : (range.lowerEndpoint : WithTop Time) < range.upperEndpoint)
    (hall : ∀ r ∈ ranges, (r.lowerEndpoint : WithTop Time) < r.upperEndpoint) :
    ∀ r ∈ insertRange range ranges, (r.lowerEndpoint : WithTop Time) < r.upperEndpoint := by
  refine insertRange_forall (fun r s hr _ => ?_) hrange hall
  exact (WithTop.coe_le_coe.mpr (min_le_left _ _)).trans_lt (hr.trans_le (le_max_left _ _))

section Apart

variable {R : WithTop Time → WithTop Time → Prop}

theorem insertRange_above {u : WithTop Time}
    (hrange : R u range.lowerEndpoint) (hall : ∀ r ∈ ranges, R u r.lowerEndpoint) :
    ∀ r ∈ insertRange range ranges, R u r.lowerEndpoint := by
  refine insertRange_forall (fun r s hr hs => ?_) hrange hall
  rcases min_choice r.lowerEndpoint s.lowerEndpoint with heq | heq <;> simpa only [heq]

/-- The new range keeps the ranges apart, be it strictly or only disjoint. -/
theorem insertRange_apart (hlt : ∀ {a b}, a < b → R a b) (htrans : ∀ {a b c}, a < b → R b c → R a c) :
    ∀ {ranges : List (TimeRange Time)} {range : TimeRange Time},
    (∀ r ∈ ranges, (r.lowerEndpoint : WithTop Time) < r.upperEndpoint) →
    ranges.Pairwise (fun r s => R r.upperEndpoint s.lowerEndpoint) →
    (insertRange range ranges).Pairwise fun r s => R r.upperEndpoint s.lowerEndpoint
  | [], range, _, _ => pairwise_singleton _ range
  | s :: ranges, range, hall, hapart => by
    obtain ⟨hs, htail⟩ := pairwise_cons.mp hapart
    have hall' : ∀ r ∈ ranges, (r.lowerEndpoint : WithTop Time) < r.upperEndpoint :=
      (forall_mem_cons.mp hall).2
    rw [insertRange]
    split
    · next hbefore =>
      exact pairwise_cons.mpr
        ⟨insertRange_above (hlt hbefore) hs, insertRange_apart hlt htrans hall' htail⟩
    · split
      · next hafter =>
        refine pairwise_cons.mpr ⟨fun r hr => ?_, hapart⟩
        rcases mem_cons.mp hr with rfl | hr
        · exact hlt hafter
        · exact htrans (hafter.trans (hall s mem_cons_self)) (hs r hr)
      · exact insertRange_apart hlt htrans hall' htail

end Apart

theorem merged_has {r s : TimeRange Time} (h : ¬ r.upperEndpoint < s.lowerEndpoint)
    (h' : ¬ s.upperEndpoint < r.lowerEndpoint) (t : Time) :
    TimeRange.Has ⟨min r.lowerEndpoint s.lowerEndpoint, max r.upperEndpoint s.upperEndpoint⟩ t ↔
      r.Has t ∨ s.Has t := by
  simp only [TimeRange.Has, min_le_iff, lt_max_iff]
  constructor
  · rintro ⟨hr | hs, hr' | hs'⟩
    · exact .inl ⟨hr, hr'⟩
    · -- `t` is from `r` on and before the end of `s`: the two ranges leave no gap
      rcases lt_or_ge (t : WithTop Time) r.upperEndpoint with hlt | hge
      · exact .inl ⟨hr, hlt⟩
      · exact .inr ⟨WithTop.coe_le_coe.mp ((not_lt.mp h).trans hge), hs'⟩
    · rcases lt_or_ge (t : WithTop Time) s.upperEndpoint with hlt | hge
      · exact .inr ⟨hs, hlt⟩
      · exact .inl ⟨WithTop.coe_le_coe.mp ((not_lt.mp h').trans hge), hr'⟩
    · exact .inr ⟨hs, hs'⟩
  · rintro (⟨hl, hu⟩ | ⟨hl, hu⟩)
    · exact ⟨.inl hl, .inl hu⟩
    · exact ⟨.inr hl, .inr hu⟩

theorem insertRange_has (t : Time) : ∀ {ranges : List (TimeRange Time)} {range : TimeRange Time},
    (∃ r ∈ insertRange range ranges, r.Has t) ↔ range.Has t ∨ ∃ r ∈ ranges, r.Has t
  | [], range => by simp [insertRange]
  | s :: ranges, range => by
    rw [insertRange]
    split
    · simp only [mem_cons, exists_eq_or_imp, insertRange_has t]
      tauto
    · next hbefore =>
      split
      · simp only [mem_cons, exists_eq_or_imp]
      · next hafter =>
        rw [insertRange_has t, merged_has hbefore hafter]
        simp only [mem_cons, exists_eq_or_imp]
        tauto

/-- What the new range overlaps or touches is merged into it. -/
def TreeRangeSet.inserting : TreeRangeSet Time where
  add := fun set range h => ⟨insertRange range set.ranges, insertRange_nonempty h set.nonempty,
    insertRange_apart le_of_lt (fun hlt hle => hlt.le.trans hle) set.nonempty set.disjoint⟩
  merged := fun {set} _ _ hset => insertRange_apart id lt_trans set.nonempty hset
  has := fun t => insertRange_has t

def ZoneUses.empty : ZoneUses Time := ⟨[], by simp, .nil⟩

theorem ZoneUses.empty_merged : (empty : ZoneUses Time).Merged := .nil

/-! ### The uses built from requirements -/

/-- The spacing requirements of one train or work schedule. -/
structure Requirements (Time : Type) where
  id : RequirementId
  spacingRequirements : List (SpacingRequirement Time)

variable (rangeSet : TreeRangeSet Time)

/-- One spacing requirement: an empty range is not added, and `closedOpen` throws on one that ends
    before it begins. -/
def addSpacingRequirement (rangeSets : ParsedRequirements Time)
    (spacingReq : SpacingRequirement Time) : Option (ParsedRequirements Time) :=
  let set := (rangeSets spacingReq.zone).getD .empty
  if h : (spacingReq.beginTime : WithTop Time) < spacingReq.endTime then
    some (Function.update rangeSets spacingReq.zone
      (some (rangeSet.add set ⟨spacingReq.beginTime, spacingReq.endTime⟩ h)))
  else if spacingReq.beginTime = spacingReq.endTime then
    some (Function.update rangeSets spacingReq.zone (some set))
  else none

/-- The instants at which a zone is used. -/
def UsedAt (spacingZoneUses : ParsedRequirements Time) (zone : ZoneId) (t : Time) : Prop :=
  ∃ map, spacingZoneUses zone = some map ∧ ∃ r ∈ map.ranges, r.Has t

/-- The requirement asks for the zone at that instant. -/
def SpacingRequirement.Needs (r : SpacingRequirement Time) (zone : ZoneId) (t : Time) : Prop :=
  r.zone = zone ∧ r.beginTime ≤ t ∧ (t : WithTop Time) < r.endTime

variable {rangeSets : ParsedRequirements Time}

theorem usedAt_update {z zone : ZoneId} {set : ZoneUses Time}
    {t : Time} : UsedAt (Function.update rangeSets z (some set)) zone t ↔
      if zone = z then ∃ r ∈ set.ranges, r.Has t else UsedAt rangeSets zone t := by
  by_cases hz : zone = z <;> simp [UsedAt, hz]

theorem getD_empty_has {zone : ZoneId} {t : Time} :
    (∃ r ∈ ((rangeSets zone).getD .empty).ranges, r.Has t) ↔ UsedAt rangeSets zone t := by
  cases hzone : rangeSets zone <;> simp [UsedAt, hzone, ZoneUses.empty]

theorem addSpacingRequirement_usedAt {rangeSets rangeSets' : ParsedRequirements Time}
    {r : SpacingRequirement Time} (h : addSpacingRequirement rangeSet rangeSets r = some rangeSets')
    (zone : ZoneId) (t : Time) :
    UsedAt rangeSets' zone t ↔ UsedAt rangeSets zone t ∨ r.Needs zone t := by
  simp only [addSpacingRequirement] at h
  split at h
  · cases h
    rw [usedAt_update]
    split
    · next hz =>
      rw [hz, rangeSet.has, getD_empty_has, or_comm]
      simp [SpacingRequirement.Needs, TimeRange.Has]
    · next hz => simp [SpacingRequirement.Needs, Ne.symm hz]
  · next hlt =>
    split at h
    · cases h
      have hnever : ¬ r.Needs zone t := fun hneeds =>
        hlt ((WithTop.coe_le_coe.mpr hneeds.2.1).trans_lt hneeds.2.2)
      rw [usedAt_update, or_iff_left hnever]
      split
      · next hz => rw [hz, getD_empty_has]
      · rfl
    · cases h

theorem foldlM_addSpacingRequirement_usedAt (zone : ZoneId) (t : Time) :
    ∀ {rs : List (SpacingRequirement Time)} {rangeSets rangeSets' : ParsedRequirements Time},
      rs.foldlM (addSpacingRequirement rangeSet) rangeSets = some rangeSets' →
      (UsedAt rangeSets' zone t ↔ UsedAt rangeSets zone t ∨ ∃ r ∈ rs, r.Needs zone t)
  | [], rangeSets, rangeSets', h => by
    obtain rfl : rangeSets = rangeSets' := by simpa using h
    simp
  | r :: rs, rangeSets, rangeSets', h => by
    rw [foldlM_cons, Option.bind_eq_bind, Option.bind_eq_some_iff] at h
    obtain ⟨mid, hmid, hrest⟩ := h
    rw [foldlM_addSpacingRequirement_usedAt zone t hrest, addSpacingRequirement_usedAt rangeSet hmid]
    simp only [mem_cons, exists_eq_or_imp]
    tauto

def generateSpacingZoneUses (requirements : List (Requirements Time)) :
    Option (ParsedRequirements Time) :=
  requirements.foldlM (fun rangeSets req =>
    req.spacingRequirements.foldlM (addSpacingRequirement rangeSet) rangeSets) fun _ => none

theorem generateSpacingZoneUses_eq (requirements : List (Requirements Time)) :
    generateSpacingZoneUses rangeSet requirements = (requirements.flatMap (·.spacingRequirements)).foldlM
      (addSpacingRequirement rangeSet) fun _ => none := by
  unfold generateSpacingZoneUses
  generalize (fun _ => none : ParsedRequirements Time) = rangeSets
  induction requirements generalizing rangeSets with
  | nil => rfl
  | cons req reqs ih => simp [ih]

end Osrd.Conflicts
