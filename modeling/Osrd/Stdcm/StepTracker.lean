import Mathlib.Algebra.Order.BigOperators.Group.List
import Mathlib.Data.List.DropRight
import Osrd.Lib.EarliestFit
import Osrd.Stdcm.Explorer

/-! Model of `StepTracker` (`core/.../stdcm/infra_exploration/StepTracker.kt`): the steps that have been
    seen along the explored ranges, and where.

    A range is searched from its start for the next step, then from there for the one after, and so on
    until a step is not found. Within a range this is an earliest fit (`locatedOffsets`). Over all the
    ranges no placement of the steps, in order, at their own locations sees more of them. -/

namespace Osrd.Stdcm

open List Option

/-! ### The code -/

/-- The locations of a step on the block, between the two offsets. -/
def ExplorerStep.locationsIn (step : ExplorerStep) (block : BlockId) (lower upper : Offset) :
    List BlockLocation :=
  (step.locations.filter (·.edge = block)).filter fun l => lower ≤ l.offset ∧ l.offset ≤ upper

/-- `minByOrNull` on the offsets: the first location with the least one. -/
def minByOffset : List BlockLocation → Option BlockLocation
  | [] => none
  | l :: ls =>
      match minByOffset ls with
      | none => some l
      | some m => if m.offset < l.offset then some m else some l

theorem minByOffset_eq_none : ∀ {ls : List BlockLocation}, minByOffset ls = none → ls = []
  | [], _ => rfl
  | l :: ls, h => by
    rw [minByOffset] at h
    split at h
    · cases h
    · split at h
      · cases h
      · cases h

theorem minByOffset_eq_some : ∀ {ls : List BlockLocation} {m : BlockLocation},
    minByOffset ls = some m → m ∈ ls ∧ ∀ l ∈ ls, m.offset ≤ l.offset
  | l :: ls, m, h => by
    rw [minByOffset] at h
    split at h
    · next hnone =>
      cases h
      simp [minByOffset_eq_none hnone]
    · next m' hsome =>
      obtain ⟨hmem, hle⟩ := minByOffset_eq_some hsome
      split at h
      · next hlt =>
        cases h
        exact ⟨mem_cons_of_mem _ hmem, forall_mem_cons.mpr ⟨hlt.le, hle⟩⟩
      · next hge =>
        cases h
        refine ⟨mem_cons_self, forall_mem_cons.mpr ⟨le_rfl, fun l' hl' => ?_⟩⟩
        exact (not_lt.mp hge).trans (hle l' hl')

/-- The first location of the step in the range. -/
def ExplorerStep.firstIn (step : ExplorerStep) (block : BlockId) (lower upper : Offset) :
    Option BlockLocation :=
  minByOffset (step.locationsIn block lower upper)

variable {l : BlockLocation}

theorem ExplorerStep.firstIn_mem {step : ExplorerStep} {block : BlockId} {lower upper : Offset}
    (h : step.firstIn block lower upper = some l) : l ∈ step.locations :=
  (mem_filter.mp (mem_filter.mp (minByOffset_eq_some h).1).1).1

structure StepTracker where
  inputSteps : List ExplorerStep
  seenSteps : List LocatedStep
  nStepsExcludingLookahead : ℕ
  currentPathOffset : Offset

namespace StepTracker

def new (inputSteps : List ExplorerStep) : StepTracker := ⟨inputSteps, [], 0, 0⟩

variable (t : StepTracker)

def nSeenSteps : ℕ := t.seenSteps.length

def hasSeenDestination : Bool := t.nSeenSteps = t.inputSteps.length

/-- The loop of `exploreBlockRange` over the steps that are left. -/
def locateSteps (block : BlockId) (rangeEnd currentBlockStart : Offset) :
    Offset → List ExplorerStep → List LocatedStep
  | _, [] => []
  | currentPathOffset, step :: steps =>
      match h : step.firstIn block (currentPathOffset - currentBlockStart) rangeEnd with
      | none => []
      | some location =>
          let currentPathOffset := currentBlockStart + location.offset
          ⟨currentPathOffset, location, step, ExplorerStep.firstIn_mem h⟩ ::
            locateSteps block rangeEnd currentBlockStart currentPathOffset steps

/-- The tracker after the call, and the new steps. -/
def exploreBlockRange (block : BlockId) (rangeStart rangeEnd : Offset) :
    StepTracker × List LocatedStep :=
  let currentBlockStart := t.currentPathOffset - rangeStart
  let res := locateSteps block rangeEnd currentBlockStart t.currentPathOffset
    (t.inputSteps.drop t.nSeenSteps)
  ({ t with seenSteps := t.seenSteps ++ res, currentPathOffset := currentBlockStart + rangeEnd }, res)

/-- The steps whose offset is known but that the simulation has not reached, the last one first. -/
def iterateStepsInLookaheadBackwards : List LocatedStep :=
  t.seenSteps.reverse.take (t.seenSteps.length - t.nStepsExcludingLookahead)

/-- What is kept in the lookahead goes to the oldest step that is not in the range. -/
def moveForward (block : BlockId) (start stop : Offset) : StepTracker :=
  let nStepsStillInLookahead := (t.iterateStepsInLookaheadBackwards.rdropWhile fun it =>
    it.location.edge = block ∧ start ≤ it.location.offset ∧ it.location.offset ≤ stop).length
  { t with nStepsExcludingLookahead := t.nSeenSteps - nStepsStillInLookahead }

/-- A call of `exploreBlockRange` whose range is not reversed. -/
structure BlockRange where
  block : BlockId
  rangeStart : Offset
  rangeEnd : Offset
  start_le_end : rangeStart ≤ rangeEnd

variable (ranges : List BlockRange)

def exploreBlockRanges : StepTracker :=
  ranges.foldl (fun t r => (t.exploreBlockRange r.block r.rangeStart r.rangeEnd).1) t

/-! ### One range -/

variable {steps : List ExplorerStep}

section Range

variable {block : BlockId} {upper : Offset}

/-- The offsets of a range at which a step may be found. -/
def Allowed (block : BlockId) (upper : Offset) (step : ExplorerStep) (offset : Offset) : Prop :=
  ⟨block, offset⟩ ∈ step.locations ∧ offset ≤ upper

def firstOffset (block : BlockId) (upper : Offset) (step : ExplorerStep) (lower : Offset) :
    Option Offset :=
  (step.firstIn block lower upper).map (·.offset)

theorem mem_locationsIn {step : ExplorerStep} {lower : Offset} : l ∈ step.locationsIn block lower upper ↔
      l.edge = block ∧ lower ≤ l.offset ∧ Allowed block upper step l.offset := by
  simp only [ExplorerStep.locationsIn, mem_filter, decide_eq_true_eq]
  constructor
  · rintro ⟨⟨hmem, rfl⟩, hlower, hupper⟩
    exact ⟨rfl, hlower, hmem, hupper⟩
  · rintro ⟨rfl, hlower, hmem, hupper⟩
    exact ⟨⟨hmem, rfl⟩, hlower, hupper⟩

theorem firstIn_eq {step : ExplorerStep} {lower : Offset} (h : step.firstIn block lower upper = some l) :
    l = ⟨block, l.offset⟩ := by
  obtain ⟨rfl, -⟩ := mem_locationsIn.mp (minByOffset_eq_some h).1
  rfl

theorem isEarliest_firstOffset (block : BlockId) (upper : Offset) :
    EarliestFit.IsEarliest (Allowed block upper) (firstOffset block upper) where
  sound h := by
    obtain ⟨l, hl, rfl⟩ := map_eq_some_iff.mp h
    exact (mem_locationsIn.mp (minByOffset_eq_some hl).1).2
  le {step lower p q} h hle hq := by
    obtain ⟨l, hl, rfl⟩ := map_eq_some_iff.mp h
    have hmem : (⟨block, q⟩ : BlockLocation) ∈ step.locationsIn block lower upper :=
      mem_locationsIn.mpr ⟨rfl, hle, hq⟩
    exact (minByOffset_eq_some hl).2 _ hmem
  none {step lower q} h hle hq := by
    have hmem : (⟨block, q⟩ : BlockLocation) ∈ step.locationsIn block lower upper :=
      mem_locationsIn.mpr ⟨rfl, hle, hq⟩
    rw [firstOffset, map_eq_none_iff] at h
    simp [minByOffset_eq_none h] at hmem

/-- The offsets at which the steps are found in a range. -/
def locatedOffsets (block : BlockId) (rangeStart rangeEnd : Offset) (steps : List ExplorerStep) :
    List Offset :=
  EarliestFit.earliest (firstOffset block rangeEnd) rangeStart steps

/-- A step found on the range that starts at the path offset. -/
def LocatedAt (block : BlockId) (currentBlockStart : Offset) (located : LocatedStep)
    (offset : Offset) : Prop :=
  located.location = ⟨block, offset⟩ ∧ located.travelledPathOffset = currentBlockStart + offset

theorem locateSteps_spec (currentBlockStart : Offset) :
    ∀ (steps : List ExplorerStep) (pathOffset : Offset), List.Forall₂ (LocatedAt block currentBlockStart)
        (locateSteps block upper currentBlockStart pathOffset steps)
        (locatedOffsets block (pathOffset - currentBlockStart) upper steps) ∧
      (locateSteps block upper currentBlockStart pathOffset steps).map (·.originalStep) <+: steps
  | [], _ => ⟨.nil, prefix_rfl⟩
  | step :: steps, pathOffset => by
    rw [locateSteps, locatedOffsets, EarliestFit.earliest, firstOffset]
    split
    · next h =>
      rw [h]
      exact ⟨.nil, nil_prefix⟩
    · next location h =>
      obtain ⟨hlocated, hinit⟩ := locateSteps_spec currentBlockStart steps
        (currentBlockStart + location.offset)
      rw [add_sub_cancel_left] at hlocated
      simp only [h]
      exact ⟨.cons ⟨firstIn_eq h, rfl⟩ hlocated, cons_prefix_cons.mpr ⟨rfl, hinit⟩⟩

theorem exploreBlockRange_spec (t : StepTracker) (block : BlockId) (rangeStart rangeEnd : Offset) :
    List.Forall₂ (LocatedAt block (t.currentPathOffset - rangeStart))
      (t.exploreBlockRange block rangeStart rangeEnd).2
      (locatedOffsets block rangeStart rangeEnd (t.inputSteps.drop t.nSeenSteps)) ∧
    (t.exploreBlockRange block rangeStart rangeEnd).2.map (·.originalStep) <+:
      t.inputSteps.drop t.nSeenSteps := by
  have h := @locateSteps_spec block rangeEnd (t.currentPathOffset - rangeStart)
    (t.inputSteps.drop t.nSeenSteps) t.currentPathOffset
  rwa [sub_sub_cancel] at h

/-- The number of steps seen after one more range. -/
theorem nSeenSteps_exploreBlockRange (t : StepTracker) (block : BlockId) (rangeStart rangeEnd : Offset) :
    (t.exploreBlockRange block rangeStart rangeEnd).1.nSeenSteps = t.nSeenSteps +
      (locatedOffsets block rangeStart rangeEnd (t.inputSteps.drop t.nSeenSteps)).length := by
  rw [← (exploreBlockRange_spec t block rangeStart rangeEnd).1.length_eq]
  exact length_append

theorem locatedOffsets_le {rangeStart rangeEnd : Offset} :
    ∀ o ∈ locatedOffsets block rangeStart rangeEnd steps, rangeStart ≤ o ∧ o ≤ rangeEnd := by
  intro o ho
  have hplaced := EarliestFit.earliest_placed (isEarliest_firstOffset block rangeEnd) rangeStart steps
  obtain ⟨_, hallowed⟩ := hplaced.exists_allowed o ho
  exact ⟨hplaced.lo_le o ho, hallowed.2⟩

end Range

/-! ### Placements on the ranges -/

/-- A position of the explored ranges: a range, then an offset of its block. -/
structure Position where
  range : ℕ
  offset : Offset
deriving DecidableEq

/-- The order of the positions: by range, then by offset. -/
def Position.NotAfter (p q : Position) : Prop :=
  p.range < q.range ∨ p.range = q.range ∧ p.offset ≤ q.offset

/-- The step has a location at the position. -/
def HasLocation (step : ExplorerStep) (p : Position) : Prop :=
  ∃ r, ranges[p.range]? = some r ∧ r.rangeStart ≤ p.offset ∧ p.offset ≤ r.rangeEnd ∧
    ⟨r.block, p.offset⟩ ∈ step.locations

/-- The steps placed in order at locations of their own. -/
structure Placement (ranges : List BlockRange) (steps : List ExplorerStep) (ps : List Position) :
    Prop where
  hasLocation : List.Forall₂ (HasLocation ranges) steps ps
  ordered : ps.Pairwise Position.NotAfter

def pathLength : Offset :=
  (ranges.map fun r => r.rangeEnd - r.rangeStart).sum

/-- A step recorded at the position, with the offset of that position on the path. -/
def RecordedAt (located : LocatedStep) (p : Position) : Prop :=
  ∃ r, ranges[p.range]? = some r ∧ located.location = ⟨r.block, p.offset⟩ ∧
    located.travelledPathOffset = pathLength (ranges.take p.range) + (p.offset - r.rangeStart)

variable {p : Position} {located : LocatedStep}

section Placements

variable {ranges : List BlockRange} {r : BlockRange}

theorem pathLength_append (ranges ranges' : List BlockRange) :
    pathLength (ranges ++ ranges') = pathLength ranges + pathLength ranges' := by
  simp [pathLength]

theorem pathLength_nonneg (ranges : List BlockRange) : 0 ≤ pathLength ranges := by
  refine sum_nonneg fun x hx => ?_
  obtain ⟨r, -, rfl⟩ := mem_map.mp hx
  exact sub_nonneg.mpr r.start_le_end

theorem pathLength_take_le (ranges : List BlockRange) {i j : ℕ} (h : i ≤ j) :
    pathLength (ranges.take i) ≤ pathLength (ranges.take j) := by
  obtain ⟨k, rfl⟩ := Nat.exists_eq_add_of_le h
  rw [take_add, pathLength_append]
  exact le_add_of_nonneg_right (pathLength_nonneg _)

theorem pathLength_take_succ {i : ℕ} (h : ranges[i]? = some r) : pathLength (ranges.take (i + 1)) =
      pathLength (ranges.take i) + (r.rangeEnd - r.rangeStart) := by
  rw [take_add_one, h, pathLength_append]
  simp [pathLength]

theorem range_lt_of_getElem? {ranges : List BlockRange} {i : ℕ} (h : ranges[i]? = some r) :
    i < ranges.length :=
  (List.getElem?_eq_some_iff.mp h).1

variable {step : ExplorerStep}

theorem HasLocation.range_lt (h : HasLocation ranges step p) : p.range < ranges.length := by
  obtain ⟨r, hr, -⟩ := h
  exact range_lt_of_getElem? hr

theorem HasLocation.append (h : HasLocation ranges step p) (ranges' : List BlockRange) :
    HasLocation (ranges ++ ranges') step p := by
  obtain ⟨r, hr, hp⟩ := h
  exact ⟨r, by rw [getElem?_append_left (range_lt_of_getElem? hr), hr], hp⟩

theorem RecordedAt.append (h : RecordedAt ranges located p) (ranges' : List BlockRange) :
    RecordedAt (ranges ++ ranges') located p := by
  obtain ⟨r, hr, hlocation, hoffset⟩ := h
  have hlt := range_lt_of_getElem? hr
  refine ⟨r, by rw [getElem?_append_left hlt, hr], hlocation, ?_⟩
  rw [hoffset, take_append_of_le_length hlt.le]

/-- A position of the ranges with one more is on the last of them, or was there before. -/
theorem HasLocation.cases_append (h : HasLocation (ranges ++ [r]) step p) :
    HasLocation ranges step p ∨ p.range = ranges.length ∧ r.rangeStart ≤ p.offset ∧
        Allowed r.block r.rangeEnd step p.offset := by
  obtain ⟨r', hr', hstart, hend, hmem⟩ := h
  rcases lt_or_ge p.range ranges.length with hlt | hge
  · rw [getElem?_append_left hlt] at hr'
    exact .inl ⟨r', hr', hstart, hend, hmem⟩
  · have hlt := range_lt_of_getElem? hr'
    rw [length_append, length_singleton] at hlt
    have hrange : p.range = ranges.length := by omega
    rw [hrange, getElem?_append_right le_rfl, Nat.sub_self, getElem?_cons_zero, some.injEq] at hr'
    subst hr'
    exact .inr ⟨hrange, hstart, hmem, hend⟩

theorem hasLocation_last {offset : Offset} (hstart : r.rangeStart ≤ offset)
    (h : Allowed r.block r.rangeEnd step offset) :
    HasLocation (ranges ++ [r]) step ⟨ranges.length, offset⟩ :=
  ⟨r, by simp, hstart, h.2, h.1⟩

variable {ps : List Position}

theorem Placement.range_lt (h : Placement ranges steps ps) : ∀ p ∈ ps, p.range < ranges.length := by
  obtain ⟨hlocation, -⟩ := h
  induction hlocation with
  | nil => simp
  | cons hp _ ih => simpa using ⟨hp.range_lt, ih⟩

/-- Once on the last range, a placement stays on it. -/
theorem exists_offsets_of_last (h : List.Forall₂ (HasLocation (ranges ++ [r])) steps ps)
    (hlast : ∀ p ∈ ps, ranges.length ≤ p.range) :
    ∃ offsets : List Offset, ps = offsets.map (⟨ranges.length, ·⟩) ∧ (∀ o ∈ offsets, r.rangeStart ≤ o) ∧
      List.Forall₂ (Allowed r.block r.rangeEnd) steps offsets := by
  induction h with
  | nil => exact ⟨[], rfl, by simp, .nil⟩
  | @cons step p steps ps hp _ ih =>
    obtain ⟨offsets, rfl, hstarts, hallowed⟩ := ih (forall_mem_cons.mp hlast).2
    have hge := hlast p mem_cons_self
    rcases hp.cases_append with hbefore | ⟨hrange, hstart, hp⟩
    · exact absurd hbefore.range_lt hge.not_gt
    · refine ⟨p.offset :: offsets, ?_, ?_, .cons hp hallowed⟩
      · rw [map_cons, ← hrange]
      · intro o ho
        rcases mem_cons.mp ho with rfl | ho
        · exact hstart
        · exact hstarts o ho

theorem pairwise_offsets {n : ℕ} {offsets : List Offset} :
    (offsets.map (Position.mk n)).Pairwise Position.NotAfter ↔ offsets.Pairwise (· ≤ ·) := by
  simp [pairwise_map, Position.NotAfter]

/-- A placement on the ranges with one more is a placement on the others, then one on the last. -/
theorem Placement.cut (h : Placement (ranges ++ [r]) steps ps) :
    ∃ (before : List Position) (offsets : List Offset), ps = before ++ offsets.map (⟨ranges.length, ·⟩) ∧
      Placement ranges (steps.take before.length) before ∧
      EarliestFit.Placed (Allowed r.block r.rangeEnd) r.rangeStart (steps.drop before.length) offsets := by
  obtain ⟨hlocation, hordered⟩ := h
  -- the cut is before the first position on the last range
  induction hlocation with
  | nil => exact ⟨[], [], rfl, ⟨.nil, .nil⟩, .nil _⟩
  | @cons step p steps ps hp hps ih =>
    obtain ⟨hle, hordered'⟩ := pairwise_cons.mp hordered
    rcases hp.cases_append with hbefore | ⟨hrange, -⟩
    · obtain ⟨before, offsets, rfl, hplacement, hplaced⟩ := ih hordered'
      refine ⟨p :: before, offsets, rfl, ⟨.cons hbefore hplacement.hasLocation, ?_⟩, hplaced⟩
      exact .cons (fun q hq => hle q (mem_append_left _ hq)) hplacement.ordered
    · have hlast : ∀ q ∈ p :: ps, ranges.length ≤ q.range := by
        intro q hq
        rcases mem_cons.mp hq with rfl | hq
        · exact hrange.ge
        · rcases hle q hq with hlt | ⟨heq, -⟩
          · omega
          · omega
      obtain ⟨offsets, heq, hstarts, hallowed⟩ := exists_offsets_of_last (.cons hp hps) hlast
      rw [heq, pairwise_offsets] at hordered
      exact ⟨[], offsets, heq, ⟨.nil, .nil⟩, .of_forall₂ hallowed hordered hstarts⟩

theorem Placement.append {steps steps' : List ExplorerStep} {offsets : List Offset}
    (h : Placement ranges steps ps)
    (h' : EarliestFit.Placed (Allowed r.block r.rangeEnd) r.rangeStart steps' offsets) :
    Placement (ranges ++ [r]) (steps ++ steps') (ps ++ offsets.map (⟨ranges.length, ·⟩)) where
  hasLocation := by
    refine rel_append (h.hasLocation.imp fun _ _ hp => hp.append [r]) ?_
    rw [forall₂_map_right_iff]
    exact h'.forall₂.imp fun _ _ hp => hasLocation_last hp.1 hp.2
  ordered := by
    refine pairwise_append.mpr ⟨h.ordered, pairwise_offsets.mpr h'.pairwise, ?_⟩
    intro p hp q hq
    obtain ⟨o, -, rfl⟩ := mem_map.mp hq
    exact .inl (h.range_lt p hp)

theorem recordedAt_last {offset : Offset}
    (h : LocatedAt r.block (pathLength ranges - r.rangeStart) located offset) :
    RecordedAt (ranges ++ [r]) located ⟨ranges.length, offset⟩ := by
  obtain ⟨hlocation, hoffset⟩ := h
  refine ⟨r, by simp, hlocation, ?_⟩
  rw [hoffset, take_left]
  ring

/-- Along the positions the path offset does not decrease. -/
theorem RecordedAt.le {located located' : LocatedStep} {p q : Position}
    (hp : RecordedAt ranges located p) (hq : RecordedAt ranges located' q) (hle : p.NotAfter q)
    {step : ExplorerStep} (hp' : HasLocation ranges step p) {step' : ExplorerStep}
    (hq' : HasLocation ranges step' q) : located.travelledPathOffset ≤ located'.travelledPathOffset := by
  obtain ⟨r, hr, -, hoffset⟩ := hp
  obtain ⟨r', hr', -, hoffset'⟩ := hq
  obtain ⟨_, hr₁, hstart, hend, -⟩ := hp'
  obtain ⟨_, hr₁', hstart', hend', -⟩ := hq'
  rw [hr, some.injEq] at hr₁
  rw [hr', some.injEq] at hr₁'
  subst hr₁ hr₁'
  rw [hoffset, hoffset']
  rcases hle with hlt | ⟨heq, hle⟩
  · have hfull := pathLength_take_le ranges hlt
    rw [pathLength_take_succ hr] at hfull
    linarith
  · rw [heq, hr', some.injEq] at hr
    subst hr
    rw [heq]
    linarith

end Placements

/-! ### All the ranges -/

/-- A step seen at a location of the ranges. -/
def SeenAt (ranges : List BlockRange) (located : LocatedStep) (p : Position) : Prop :=
  ∃ r, ranges[p.range]? = some r ∧ located.location = ⟨r.block, p.offset⟩

/-- What the tracker has seen of the ranges, wherever they are on the path. -/
structure Tracked (inputSteps : List ExplorerStep) (ranges : List BlockRange) (t : StepTracker)
    (ps : List Position) : Prop where
  inputSteps_eq : t.inputSteps = inputSteps
  seenSteps_eq : t.seenSteps.map (·.originalStep) = inputSteps.take t.nSeenSteps
  seenAt : List.Forall₂ (SeenAt ranges) t.seenSteps ps
  placement : Placement ranges (inputSteps.take t.nSeenSteps) ps
  longest {k : ℕ} {qs : List Position} :
    Placement ranges (inputSteps.take k) qs → qs.length ≤ t.nSeenSteps

/-- What is known once the ranges are explored. -/
structure Explored (inputSteps : List ExplorerStep) (ranges : List BlockRange) (t : StepTracker)
    (ps : List Position) : Prop where
  inputSteps_eq : t.inputSteps = inputSteps
  offset_eq : t.currentPathOffset = pathLength ranges
  seenSteps_eq : t.seenSteps.map (·.originalStep) = inputSteps.take t.nSeenSteps
  recorded : List.Forall₂ (RecordedAt ranges) t.seenSteps ps
  placement : Placement ranges (inputSteps.take t.nSeenSteps) ps
  longest {k : ℕ} {qs : List Position} :
    Placement ranges (inputSteps.take k) qs → qs.length ≤ t.nSeenSteps

section Tracked

variable {steps : List ExplorerStep} {ranges : List BlockRange} {t : StepTracker} {ps : List Position}

theorem tracked_new (steps : List ExplorerStep) : Tracked steps [] (new steps) [] where
  inputSteps_eq := rfl
  seenSteps_eq := by simp [new, nSeenSteps]
  seenAt := .nil
  placement := ⟨.nil, .nil⟩
  longest {k qs} h := by
    cases qs with
    | nil => simp
    | cons q qs => simpa using h.range_lt q mem_cons_self

theorem SeenAt.append (h : SeenAt ranges located p) (ranges' : List BlockRange) :
    SeenAt (ranges ++ ranges') located p := by
  obtain ⟨r, hr, hlocation⟩ := h
  exact ⟨r, by rw [getElem?_append_left (range_lt_of_getElem? hr), hr], hlocation⟩

theorem Tracked.nSeenSteps_le (h : Tracked steps ranges t ps) : t.nSeenSteps ≤ steps.length := by
  have hlength := congrArg length h.seenSteps_eq
  rw [length_map, length_take] at hlength
  exact min_eq_left_iff.mp hlength.symm

/-- One more range, of which only a part with all that is found on it is kept. What is found is an earliest
    fit of the steps that are left. -/
theorem Tracked.step_part (h : Tracked steps ranges t ps) (r : BlockRange) {stop : Offset}
    (hstart : r.rangeStart ≤ stop) (hstop : stop ≤ r.rangeEnd)
    (hfound : ∀ o ∈ locatedOffsets r.block r.rangeStart r.rangeEnd (steps.drop t.nSeenSteps),
      o ≤ stop) : Tracked steps (ranges ++ [⟨r.block, r.rangeStart, stop, hstart⟩])
      (t.exploreBlockRange r.block r.rangeStart r.rangeEnd).1
      (ps ++ (locatedOffsets r.block r.rangeStart r.rangeEnd
        (steps.drop t.nSeenSteps)).map (⟨ranges.length, ·⟩)) := by
  obtain ⟨hlocated, hinit⟩ := exploreBlockRange_spec t r.block r.rangeStart r.rangeEnd
  have hseen := nSeenSteps_exploreBlockRange t r.block r.rangeStart r.rangeEnd
  have hfit := isEarliest_firstOffset r.block r.rangeEnd
  have hplaced := EarliestFit.earliest_placed hfit r.rangeStart (steps.drop t.nSeenSteps)
  rw [h.inputSteps_eq] at hlocated hinit hseen
  constructor
  case inputSteps_eq => exact h.inputSteps_eq
  case seenSteps_eq =>
    rw [hseen, take_add, ← h.seenSteps_eq, ← hlocated.length_eq,
      ← length_map (f := (·.originalStep)), ← prefix_iff_eq_take.mp hinit]
    exact map_append
  case seenAt =>
    refine rel_append (h.seenAt.imp fun _ _ hp => hp.append _) ?_
    rw [forall₂_map_right_iff]
    exact hlocated.imp fun _ _ hp => ⟨⟨r.block, r.rangeStart, stop, hstart⟩, by simp, hp.1⟩
  case placement =>
    rw [hseen, take_add]
    exact h.placement.append (hplaced.imp_mem fun _ o ho hallowed => ⟨hallowed.1, hfound o ho⟩)
  case longest =>
    intro k qs hqs
    obtain ⟨before, offsets, rfl, hbefore, hoffsets⟩ := hqs.cut
    rw [take_take] at hbefore
    have hbefore := h.longest hbefore
    -- the steps that are left, without those that the placement has earlier than the tracker
    have hwhole : EarliestFit.Placed (Allowed r.block r.rangeEnd) r.rangeStart
        ((steps.take k).drop before.length) offsets :=
      hoffsets.imp_mem fun _ _ _ hallowed => ⟨hallowed.1, hallowed.2.trans hstop⟩
    have hleft := hwhole.drop (t.nSeenSteps - before.length)
    rw [drop_drop, Nat.add_sub_cancel' hbefore, drop_take] at hleft
    have hnew := EarliestFit.length_le_earliest hfit hleft
    rw [hseen, locatedOffsets]
    simp only [length_append, length_map, length_drop] at hnew ⊢
    omega

theorem Tracked.step (h : Tracked steps ranges t ps) (r : BlockRange) :
    Tracked steps (ranges ++ [r]) (t.exploreBlockRange r.block r.rangeStart r.rangeEnd).1
      (ps ++ (locatedOffsets r.block r.rangeStart r.rangeEnd
        (steps.drop t.nSeenSteps)).map (⟨ranges.length, ·⟩)) :=
  h.step_part r r.start_le_end le_rfl fun o ho => (locatedOffsets_le o ho).2

end Tracked

section Explored

variable {steps : List ExplorerStep} {ranges : List BlockRange} {t : StepTracker} {ps : List Position}

theorem explored_new (steps : List ExplorerStep) : Explored steps [] (new steps) [] where
  inputSteps_eq := rfl
  offset_eq := rfl
  seenSteps_eq := (tracked_new steps).seenSteps_eq
  recorded := .nil
  placement := (tracked_new steps).placement
  longest := (tracked_new steps).longest

theorem Explored.tracked (h : Explored steps ranges t ps) : Tracked steps ranges t ps where
  inputSteps_eq := h.inputSteps_eq
  seenSteps_eq := h.seenSteps_eq
  seenAt := h.recorded.imp fun _ _ ⟨r, hr, hlocation, _⟩ => ⟨r, hr, hlocation⟩
  placement := h.placement
  longest := h.longest

theorem Explored.travelled (h : Explored steps ranges t ps) :
    (t.seenSteps.map (·.travelledPathOffset)).Pairwise (· ≤ ·) := by
  obtain ⟨hlength, hrecorded⟩ := forall₂_iff_get.mp h.recorded
  obtain ⟨hlength', hlocation⟩ := forall₂_iff_get.mp h.placement.hasLocation
  rw [pairwise_map, pairwise_iff_get]
  intro i j hij
  have hi : i < ps.length := hlength ▸ i.2
  have hj : j < ps.length := hlength ▸ j.2
  have hordered := pairwise_iff_get.mp h.placement.ordered ⟨i, hi⟩ ⟨j, hj⟩ hij
  exact (hrecorded i i.2 hi).le (hrecorded j j.2 hj) hordered
    (hlocation i (hlength' ▸ hi) hi) (hlocation j (hlength' ▸ hj) hj)

/-- One more range: what is found on it is an earliest fit. -/
theorem Explored.step (h : Explored steps ranges t ps) (r : BlockRange) :
    Explored steps (ranges ++ [r]) (t.exploreBlockRange r.block r.rangeStart r.rangeEnd).1
      (ps ++ (locatedOffsets r.block r.rangeStart r.rangeEnd
        (steps.drop t.nSeenSteps)).map (⟨ranges.length, ·⟩)) := by
  have htracked := h.tracked.step r
  have hlocated := (exploreBlockRange_spec t r.block r.rangeStart r.rangeEnd).1
  rw [h.inputSteps_eq, h.offset_eq] at hlocated
  constructor
  case inputSteps_eq => exact htracked.inputSteps_eq
  case offset_eq =>
    rw [pathLength_append, ← h.offset_eq, exploreBlockRange]
    simp [pathLength]
    ring
  case seenSteps_eq => exact htracked.seenSteps_eq
  case recorded =>
    refine rel_append (h.recorded.imp fun _ _ hp => hp.append [r]) ?_
    rw [forall₂_map_right_iff]
    exact hlocated.imp fun _ _ => recordedAt_last
  case placement => exact htracked.placement
  case longest => exact htracked.longest

theorem explored_exploreBlockRanges (steps : List ExplorerStep) (ranges : List BlockRange) :
    ∃ ps, Explored steps ranges ((new steps).exploreBlockRanges ranges) ps := by
  induction ranges using reverseRecOn with
  | nil => exact ⟨[], explored_new steps⟩
  | append_singleton ranges r ih =>
    obtain ⟨ps, h⟩ := ih
    rw [exploreBlockRanges, foldl_append]
    exact ⟨_, h.step r⟩

end Explored

/-- The tracker sees as many steps as any placement of them on the explored ranges, at locations whose
    path offsets it records; the destination is seen iff all the steps can be placed. -/
theorem exploreBlockRanges_seen (steps : List ExplorerStep) (ranges : List BlockRange) :
    let t := (new steps).exploreBlockRanges ranges
    IsGreatest {k | k ≤ steps.length ∧ ∃ ps, Placement ranges (steps.take k) ps}
      t.nSeenSteps ∧
    (∃ ps, Placement ranges (steps.take t.nSeenSteps) ps ∧
      List.Forall₂ (RecordedAt ranges) t.seenSteps ps) ∧
    t.seenSteps.map (·.originalStep) = steps.take t.nSeenSteps ∧
    (t.seenSteps.map (·.travelledPathOffset)).Pairwise (· ≤ ·) ∧
    (t.hasSeenDestination ↔ ∃ ps, Placement ranges steps ps) := by
  intro t
  obtain ⟨ps, h⟩ : ∃ ps, Explored steps ranges t ps := explored_exploreBlockRanges steps ranges
  have hgreatest : IsGreatest
      {k | k ≤ steps.length ∧ ∃ ps, Placement ranges (steps.take k) ps} t.nSeenSteps := by
    refine ⟨⟨h.tracked.nSeenSteps_le, ps, h.placement⟩, ?_⟩
    rintro k ⟨hk, qs, hqs⟩
    have hlength := hqs.hasLocation.length_eq
    rw [length_take, min_eq_left hk] at hlength
    exact hlength.trans_le (h.longest hqs)
  refine ⟨hgreatest, ⟨ps, h.placement, h.recorded⟩, h.seenSteps_eq, h.travelled, ?_⟩
  rw [hasSeenDestination, decide_eq_true_eq, h.inputSteps_eq]
  constructor
  · intro hall
    exact ⟨ps, by simpa only [hall, take_length] using h.placement⟩
  · rintro ⟨qs, hqs⟩
    refine le_antisymm h.tracked.nSeenSteps_le (hgreatest.2 ⟨le_rfl, qs, ?_⟩)
    rwa [take_length]

end StepTracker

end Osrd.Stdcm
