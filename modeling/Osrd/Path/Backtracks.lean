import Osrd.Path.TrainPath

/-! The cut of a train path at its backtrack locations.

    The sub-paths are the segments between the locations that are inside the path. Their lengths add up and
    their ranges tell what those of the path tell. But a sub-path keeps the backtrack locations at its ends
    as offsets of the whole path: where a segment is longer than the path before it, its own start is
    reported inside of it. -/

namespace Osrd.Path

open Tiling (Tiles)
open List Prod

variable {includeExactStart includeExactEnd : Bool} {length : ℤ}
variable {V R B C : Type}

/-! ### Segments -/

/-- The segments between the locations, from the current one to the end. -/
def segments (length : ℤ) : (current : ℤ) → List ℤ → List (ℤ × ℤ)
  | current, [] => [(current, length)]
  | current, l :: locations =>
      if l = current ∨ l = length then segments length current locations
      else (current, l) :: segments length l locations

theorem segments_tiles : ∀ {locations : List ℤ} {current : ℤ},
    Tiles fst snd current (segments length current locations) length
  | [], _ => ⟨rfl, rfl⟩
  | l :: locations, current => by
    rw [segments]
    split
    · exact segments_tiles
    · exact ⟨rfl, segments_tiles⟩

/-- A segment between two neighbours among the locations and the ends. -/
structure IsSegment (length current : ℤ) (locations : List ℤ) (segment : ℤ × ℤ) : Prop where
  current_le : current ≤ segment.1
  le_length : segment.2 ≤ length
  lt : segment.1 < segment.2 ∨ segment.1 = current ∧ segment.2 = length
  start : segment.1 = current ∨ segment.1 ∈ locations
  stop : segment.2 ∈ locations ∨ segment.2 = length
  between : ∀ l ∈ locations, ¬ (segment.1 < l ∧ l < segment.2)

theorem isSegment_of_mem : ∀ {locations : List ℤ} {current : ℤ},
    locations.Pairwise (· < ·) → (∀ l ∈ locations, current ≤ l ∧ l ≤ length) → current ≤ length →
    ∀ segment ∈ segments length current locations, IsSegment length current locations segment
  | [], current, _, _, hlength, segment, hsegment => by
    obtain rfl := mem_singleton.mp hsegment
    exact ⟨le_rfl, le_rfl, .inr ⟨rfl, rfl⟩, .inl rfl, .inr rfl, fun _ hl => (nomatch hl)⟩
  | l :: locations, current, hsorted, hwithin, hlength, segment, hsegment => by
    obtain ⟨hfirst, hsorted⟩ := pairwise_cons.mp hsorted
    obtain ⟨⟨hcurrent, hl⟩, hwithin⟩ := forall_mem_cons.mp hwithin
    rw [segments] at hsegment
    split at hsegment
    · next hskip =>
      have h := isSegment_of_mem hsorted hwithin hlength segment hsegment
      refine ⟨h.current_le, h.le_length, h.lt, h.start.imp_right (mem_cons_of_mem _),
        h.stop.imp_left (mem_cons_of_mem _), forall_mem_cons.mpr ⟨?_, h.between⟩⟩
      have := h.current_le
      have := h.le_length
      omega
    · next hcut =>
      rcases mem_cons.mp hsegment with rfl | hsegment
      · refine ⟨le_rfl, hl, .inl (by omega), .inl rfl, .inl mem_cons_self, ?_⟩
        refine forall_mem_cons.mpr ⟨fun h => lt_irrefl _ h.2, fun l' hl' h => ?_⟩
        exact lt_asymm (hfirst l' hl') h.2
      · have hwithin' : ∀ l' ∈ locations, l ≤ l' ∧ l' ≤ length :=
          fun l' hl' => ⟨(hfirst l' hl').le, (hwithin l' hl').2⟩
        have h := isSegment_of_mem hsorted hwithin' hl segment hsegment
        refine ⟨hcurrent.trans h.current_le, h.le_length, .inl ?_, .inr ?_,
          h.stop.imp_left (mem_cons_of_mem _), forall_mem_cons.mpr ⟨?_, h.between⟩⟩
        · rcases h.lt with hlt | ⟨hstart, hstop⟩
          · exact hlt
          · omega
        · rcases h.start with hstart | hstart
          · exact hstart ▸ mem_cons_self
          · exact mem_cons_of_mem _ hstart
        · have := h.current_le
          omega

/-- Every location inside starts a segment. -/
theorem exists_segment_from : ∀ {locations : List ℤ} {current l : ℤ},
    locations.Pairwise (· < ·) → (∀ l ∈ locations, current ≤ l) → l ∈ locations → current < l →
    l < length → ∃ stop, (l, stop) ∈ segments length current locations
  | l' :: locations, current, l, hsorted, hwithin, hl, hcurrent, hlength => by
    obtain ⟨hfirst, hsorted⟩ := pairwise_cons.mp hsorted
    obtain ⟨-, hwithin⟩ := forall_mem_cons.mp hwithin
    rw [segments]
    rcases mem_cons.mp hl with rfl | hl
    · rw [if_neg (by omega)]
      have htiles : Tiles fst snd l (segments length l locations) length := segments_tiles
      cases hsegments : segments length l locations with
      | nil =>
        rw [hsegments] at htiles
        exact absurd (show l = length from htiles) hlength.ne
      | cons segment rest =>
        rw [hsegments] at htiles
        refine ⟨segment.2, mem_cons_of_mem _ ?_⟩
        rw [show (l, segment.2) = segment from Prod.ext htiles.1.symm rfl]
        exact mem_cons_self
    · split
      · exact exists_segment_from hsorted hwithin hl hcurrent hlength
      · have hwithin' : ∀ x ∈ locations, l' ≤ x := fun x hx => (hfirst x hx).le
        obtain ⟨stop, hstop⟩ := exists_segment_from hsorted hwithin' hl (hfirst l hl) hlength
        exact ⟨stop, mem_cons_of_mem _ hstop⟩

/-! ### The sub-paths are the segments -/

namespace TrainPathImpl

variable {path : TrainPathImpl R B C}

/-- The sub-path of a segment. -/
def piece (path : TrainPathImpl R B C) (segment : ℤ × ℤ) : Option (TrainPathImpl R B C) :=
  path.subPath (some segment.1) (some segment.2) (decide (segment.1 = 0))
    (decide (segment.2 = path.getLength))

theorem foldlM_splitStep : ∀ (locations : List ℤ) (current : ℤ) (res : List (TrainPathImpl R B C)),
    (locations.foldlM path.splitStep (current, res) >>= path.splitLast) =
      ((segments path.getLength current locations).mapM path.piece).map (res ++ ·)
  | [], current, res => by
    simp only [foldlM_nil, segments, mapM_cons, mapM_nil, piece, splitLast, decide_true,
      Option.pure_def, Option.bind_eq_bind, Option.bind_some]
    cases path.subPath (some current) (some path.getLength) (decide (current = 0)) true <;> rfl
  | l :: locations, current, res => by
    rw [foldlM_cons, splitStep, segments]
    by_cases hskip : l = current ∨ l = path.getLength
    · rw [if_pos hskip, if_pos hskip]
      exact foldlM_splitStep locations current res
    · have hpiece : path.piece (current, l) =
          path.subPath (some current) (some l) (decide (current = 0)) false := by
        rw [piece, decide_eq_false (fun h => hskip (.inr h))]
      rw [if_neg hskip, if_neg hskip, mapM_cons, hpiece]
      cases path.subPath (some current) (some l) (decide (current = 0)) false with
      | none => rfl
      | some sub =>
        refine (foldlM_splitStep locations l (res ++ [sub])).trans ?_
        cases (segments path.getLength l locations).mapM path.piece with
        | none => rfl
        | some subs => simp

theorem splitAtBacktracks_eq :
    path.splitAtBacktracks = (segments path.getLength 0 path.backtrackLocations).mapM path.piece := by
  rw [splitAtBacktracks, foldlM_splitStep]
  cases (segments path.getLength 0 path.backtrackLocations).mapM path.piece <;> rfl

end TrainPathImpl

/-! ### What the sub-paths tell -/

/-- The parts, of some length from a start on, tell what the ranges tell: nothing else, everything between
    their ends, and something at every offset. -/
structure SameObjects (ranges parts : List (GenericLinearRange V)) (start length : ℤ) : Prop where
  sound : ∀ p value objectOffset, Describes parts p value objectOffset →
    Describes ranges (start + p) value objectOffset
  complete : ∀ p value objectOffset, 0 < p → p < length →
    Describes ranges (start + p) value objectOffset → Describes parts p value objectOffset
  total : ranges ≠ [] → ∀ p, 0 ≤ p → p ≤ length →
    ∃ value objectOffset, Describes parts p value objectOffset

theorem sameObjects_of_check {fromOffset toOffset length : ℤ}
    {ranges parts : List (GenericLinearRange V)} {objectLength : V → ℤ}
    (h : ranges ≠ [] → checkRangeList ranges objectLength length) (hfrom : 0 ≤ fromOffset)
    (hto : toOffset ≤ length) (hft : fromOffset < toOffset ∨
      fromOffset = toOffset ∧ includeExactStart = true ∧ includeExactEnd = true)
    (hparts : subRange fromOffset toOffset ranges true includeExactStart includeExactEnd = some parts) :
    SameObjects ranges parts fromOffset (toOffset - fromOffset) where
  sound _ _ _ := (subRange_describes hparts).1
  complete _ _ _ hpos hlt := (subRange_describes hparts).2 (.inl hpos) (.inl hlt)
  total hne p hpos hle := by
    obtain ⟨parts', hparts', hcheck⟩ := subRange_check (h hne) hfrom hto hft
    cases hparts.symm.trans hparts'
    obtain ⟨hpartsNe, hcovers, -⟩ := checkRangeList_iff.mp hcheck
    exact hcovers.describes hpartsNe hpos hle

namespace TrainPathImpl

/-- The sub-path tells of the blocks, the chunks and the routes what the path tells from its start on. -/
structure Tells (path sub : TrainPathImpl R B C) (start : ℤ) : Prop where
  blocks : SameObjects path.blocks sub.blocks start sub.getLength
  chunks : SameObjects path.chunks sub.chunks start sub.getLength
  routes : ∀ ranges, path.routes = some ranges →
    ∃ parts, sub.routes = some parts ∧ SameObjects ranges parts start sub.getLength

theorem IsSubPath.tells {path sub : TrainPathImpl R B C} {fromOffset toOffset : ℤ}
    (h : path.IsSubPath fromOffset toOffset includeExactStart includeExactEnd sub)
    (hfrom : 0 ≤ fromOffset) (hto : toOffset ≤ path.getLength) (hft : fromOffset < toOffset ∨
      fromOffset = toOffset ∧ includeExactStart = true ∧ includeExactEnd = true) :
    path.Tells sub fromOffset := by
  obtain ⟨hroutes, hblocks, hchunks, -⟩ := path.sanity
  refine ⟨?_, ?_, fun ranges hranges => ?_⟩
  · rw [h.length]
    exact sameObjects_of_check (fun _ => hblocks) hfrom hto hft h.blocks
  · rw [h.length]
    exact sameObjects_of_check (fun _ => hchunks) hfrom hto hft h.chunks
  · have hsub := h.routes
    rw [hranges, Option.mapM_some, Option.map_eq_map] at hsub
    obtain ⟨parts, hparts, hsome⟩ := Option.map_eq_some_iff.mp hsub
    refine ⟨parts, hsome.symm, ?_⟩
    rw [h.length]
    exact sameObjects_of_check (hroutes ranges hranges) hfrom hto hft hparts

/-- What is expected of the sub-paths. -/
structure SplitProperly (path : TrainPathImpl R B C) (subs : List (TrainPathImpl R B C)) : Prop where
  lengths : (subs.map getLength).sum = path.getLength
  tells : ∀ i sub, subs[i]? = some sub → path.Tells sub ((subs.take i).map getLength).sum
  backtracks : ∀ sub ∈ subs, ∀ l ∈ sub.backtrackLocations, ¬ (0 < l ∧ l < sub.getLength)

/-- After every backtrack location inside the path there is another one, or the end, at most as far as the
    location is from the start. -/
def ShortAfterBacktracks (path : TrainPathImpl R B C) : Prop :=
  ∀ l ∈ path.backtrackLocations, 0 < l → l < path.getLength →
    ∃ next, l < next ∧ next ≤ 2 * l ∧ (next ∈ path.backtrackLocations ∨ next = path.getLength)

section Split

variable {path : TrainPathImpl R B C}

theorem length_nonneg (path : TrainPathImpl R B C) : 0 ≤ path.getLength := by
  obtain ⟨-, hblocks, -⟩ := path.sanity
  obtain ⟨hne, hcovers, -⟩ := checkRangeList_iff.mp hblocks
  exact hcovers.le

variable (hwithin : ∀ l ∈ path.backtrackLocations, 0 ≤ l ∧ l ≤ path.getLength)

variable {segment : ℤ × ℤ} (hsegment : segment ∈ segments path.getLength 0 path.backtrackLocations)

include hsegment hwithin in
/-- The segments of a path, and the sub-path of each. -/
theorem piece_spec : IsSegment path.getLength 0 path.backtrackLocations segment ∧
      ∃ sub, path.piece segment = some sub ∧ sub.getLength = segment.2 - segment.1 ∧
        path.Tells sub segment.1 ∧ ∀ l, l ∈ sub.backtrackLocations ↔
          l ∈ path.backtrackLocations ∧ segment.1 ≤ l ∧ l ≤ segment.2 := by
  have hsorted := isChain_iff_pairwise.mp path.sanity.2.2.2
  have h := isSegment_of_mem hsorted hwithin path.length_nonneg segment hsegment
  have hft : segment.1 < segment.2 ∨ segment.1 = segment.2 ∧ decide (segment.1 = 0) = true ∧
      decide (segment.2 = path.getLength) = true := by
    rcases h.lt with hlt | ⟨hstart, hstop⟩
    · exact .inl hlt
    · rcases Int.lt_or_eq_of_le path.length_nonneg with hlt | heq
      · exact .inl (by omega)
      · exact .inr ⟨by omega, decide_eq_true hstart, decide_eq_true hstop⟩
  obtain ⟨sub, hsub, hisSubPath⟩ := path.subPath_spec h.current_le h.le_length hft
  refine ⟨h, sub, hsub, hisSubPath.length, hisSubPath.tells h.current_le h.le_length hft, fun l => ?_⟩
  rw [hisSubPath.backtrackLocations, mem_filter, decide_eq_true_iff]

include hsegment hwithin in
/-- The locations that a sub-path reports are at the ends of its segment, and only its start can be reported
    inside of it. -/
theorem reports_inside_iff {sub : TrainPathImpl R B C} (hsub : path.piece segment = some sub) :
    (∃ l ∈ sub.backtrackLocations, 0 < l ∧ l < sub.getLength) ↔
      segment.1 ∈ path.backtrackLocations ∧ 0 < segment.1 ∧ 2 * segment.1 < segment.2 := by
  obtain ⟨h, sub', hsub', hlength, -, hlocations⟩ := piece_spec hwithin hsegment
  cases hsub.symm.trans hsub'
  constructor
  · rintro ⟨l, hl, hpos, hlt⟩
    obtain ⟨hl, hge, hle⟩ := (hlocations l).mp hl
    have hnotBetween := h.between l hl
    have hcurrent := h.current_le
    obtain rfl : l = segment.1 := by omega
    exact ⟨hl, hpos, by omega⟩
  · rintro ⟨hmem, hpos, hlong⟩
    exact ⟨segment.1, (hlocations _).mpr ⟨hmem, le_rfl, by omega⟩, hpos, by omega⟩

include hwithin in
/-- No sub-path reports a location inside exactly when no segment is longer than the path before it. -/
theorem segments_short_iff : (∀ segment ∈ segments path.getLength 0 path.backtrackLocations,
      ¬ (segment.1 ∈ path.backtrackLocations ∧ 0 < segment.1 ∧ 2 * segment.1 < segment.2)) ↔
      path.ShortAfterBacktracks := by
  have hsorted := isChain_iff_pairwise.mp path.sanity.2.2.2
  constructor
  · intro hshort l hl hpos hlt
    obtain ⟨stop, hsegment⟩ := exists_segment_from hsorted (fun x hx => (hwithin x hx).1) hl hpos hlt
    have h := (piece_spec hwithin hsegment).1
    refine ⟨stop, ?_, not_lt.mp fun hlong => hshort _ hsegment ⟨hl, hpos, hlong⟩, h.stop⟩
    rcases h.lt with hlt' | ⟨hstart, -⟩
    · exact hlt'
    · exact absurd hstart hpos.ne'
  · rintro hshort segment hsegment ⟨hmem, hpos, hlong⟩
    have h := (piece_spec hwithin hsegment).1
    have hle := h.le_length
    obtain ⟨next, hlt, hnext, hnextMem⟩ := hshort segment.1 hmem hpos (by omega)
    -- the next location is inside the segment
    rcases hnextMem with hnextMem | rfl
    · exact h.between next hnextMem ⟨hlt, by omega⟩
    · omega

end Split

/-- The sub-paths of `split_at_backtracks` are as expected exactly when what follows each backtrack location
    is not longer than what comes before it. -/
theorem splitAtBacktracks_splitProperly_iff (path : TrainPathImpl R B C)
    (hwithin : ∀ l ∈ path.backtrackLocations, 0 ≤ l ∧ l ≤ path.getLength) :
    ∃ subs, path.splitAtBacktracks = some subs ∧
      (path.SplitProperly subs ↔ path.ShortAfterBacktracks) := by
  obtain ⟨subs, hsubs⟩ : ∃ subs,
      (segments path.getLength 0 path.backtrackLocations).mapM path.piece = some subs := by
    refine Partial.mapM_exists fun segment hsegment => ?_
    obtain ⟨-, sub, hsub, -⟩ := piece_spec hwithin hsegment
    exact ⟨sub, hsub⟩
  refine ⟨subs, by rw [splitAtBacktracks_eq, hsubs], ?_⟩
  have htiles : Tiles fst snd 0 (segments path.getLength 0 path.backtrackLocations)
      path.getLength := segments_tiles
  have hlengths : subs.map getLength =
      (segments path.getLength 0 path.backtrackLocations).map fun segment => segment.2 - segment.1 := by
    refine Partial.map_of_mapM hsubs fun segment hsegment sub hsub => ?_
    obtain ⟨-, sub', hsub', hlength, -⟩ := piece_spec hwithin hsegment
    exact Option.some.inj (hsub.symm.trans hsub') ▸ hlength
  have htells : ∀ i sub, subs[i]? = some sub → path.Tells sub ((subs.take i).map getLength).sum := by
    intro i sub hi
    rw [Partial.getElem?_of_mapM hsubs] at hi
    obtain ⟨segment, hsegment, hsub⟩ := Option.bind_eq_some_iff.mp hi
    obtain ⟨-, sub', hsub', -, htells, -⟩ := piece_spec hwithin (mem_of_getElem? hsegment)
    cases hsub.symm.trans hsub'
    have hstart := htiles.start_eq hsegment
    rw [Int.zero_add, map_take, ← hlengths, ← map_take] at hstart
    exact hstart ▸ htells
  have hbacktracks : (∀ sub ∈ subs, ∀ l ∈ sub.backtrackLocations, ¬ (0 < l ∧ l < sub.getLength)) ↔
      path.ShortAfterBacktracks := by
    rw [← segments_short_iff hwithin]
    constructor
    · intro hall segment hsegment hlong
      obtain ⟨-, sub, hsub, -⟩ := piece_spec hwithin hsegment
      obtain ⟨l, hl, hinside⟩ := (reports_inside_iff hwithin hsegment hsub).mpr hlong
      exact hall sub ((Partial.mem_mapM_iff hsubs).mpr ⟨segment, hsegment, hsub⟩) l hl hinside
    · intro hall sub hsub l hl hinside
      obtain ⟨segment, hsegment, hpiece⟩ := (Partial.mem_mapM_iff hsubs).mp hsub
      exact hall segment hsegment ((reports_inside_iff hwithin hsegment hpiece).mp ⟨l, hl, hinside⟩)
  constructor
  · exact fun h => hbacktracks.mp h.backtracks
  · intro hshort
    refine ⟨?_, htells, hbacktracks.mpr hshort⟩
    rw [hlengths, htiles.sum, Int.sub_zero]

/-- The whole of an object, from a path offset on. -/
def wholeObject (value : String) (pathBegin length : ℕ) : GenericLinearRange String :=
  ⟨value, 0, pathBegin, length, length, Int.natCast_nonneg _, by omega, le_rfl⟩

/-- 200 there and 100 back. -/
def longThere : TrainPathImpl String String String where
  infra := ⟨fun _ => 200, fun _ => 200, fun _ => 200⟩
  routes := none
  blocks := [wholeObject "there" 0 200, wholeObject "back" 200 100]
  chunks := [wholeObject "there" 0 200, wholeObject "back" 200 100]
  backtrackLocations := [200]
  sanity := by decide

theorem longThere_splitProperly :
    ∃ subs, longThere.splitAtBacktracks = some subs ∧ longThere.SplitProperly subs := by
  have hwithin : ∀ l ∈ longThere.backtrackLocations, 0 ≤ l ∧ l ≤ longThere.getLength := by decide
  obtain ⟨subs, hsubs, hiff⟩ := splitAtBacktracks_splitProperly_iff longThere hwithin
  refine ⟨subs, hsubs, hiff.mpr fun l hl _ _ => ⟨300, ?_⟩⟩
  obtain rfl := mem_singleton.mp hl
  exact ⟨by decide, by decide, .inr rfl⟩

/-- 100 there and 200 back. -/
def longBack : TrainPathImpl String String String where
  infra := ⟨fun _ => 200, fun _ => 200, fun _ => 200⟩
  routes := none
  blocks := [wholeObject "there" 0 100, wholeObject "back" 100 200]
  chunks := [wholeObject "there" 0 100, wholeObject "back" 100 200]
  backtrackLocations := [100]
  sanity := by decide

/-- The way back is 200 long and reports a backtrack location at 100. -/
theorem longBack_reports_inside : (∀ l ∈ longBack.backtrackLocations, 0 ≤ l ∧ l ≤ longBack.getLength) ∧
      longBack.splitAtBacktracks.map (·.map fun sub => (sub.backtrackLocations, sub.getLength)) =
        some [([100], 100), ([100], 200)] := by
  refine ⟨by decide, by decide +kernel⟩

end TrainPathImpl

end Osrd.Path
