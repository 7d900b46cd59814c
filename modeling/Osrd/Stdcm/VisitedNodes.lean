import Mathlib.Data.List.MinMax
import Osrd.Stdcm.VisitedRangeMap

/-! Model of `VisitedNodes` (`core/.../stdcm/graph/visited_node_tracking/VisitedNodes.kt`) as the tests
    use it, without an explorer and without infrastructure: for each location, the times at which it
    has been visited, and at what cost.

    A call of `markAsVisited` writes its ranges over the stored ones, better or worse. So a node is
    visited right after it has been marked (`isVisited_markAsVisited`), but it stays visited only when
    no later call reaches the same time at a higher cost (`isVisited_persists_iff`). -/

namespace Osrd.Stdcm

open TreeRangeMap List Option VisitedRangeMap VisitedRange Function
open VisitedRange (PlaceOf)
open WithTop (coe_add coe_lt_coe coe_le_coe coe_nonneg coe_zero)

/-! ### Model -/

/-- `E` is the type of the edge identifiers. -/
structure Fingerprint (E : Type) where
  identifier : E
  waypointIndex : ℤ
  startOffset : ℤ
deriving DecidableEq

/-- `VisitedNodes.Parameters` without the explorer. -/
structure NodeParameters (E : Type) where
  fingerprint : Fingerprint E
  timeData : TimeData
  maxMarginDuration : WithTop ℚ
  remainingTimeEstimation : ℚ := 0

namespace NodeParameters

variable {E : Type} (p : NodeParameters E)

def nodeCost : ℚ := p.timeData.totalRunningTime + p.remainingTimeEstimation

def withClippedMarginDuration (maxMarginDurationUpperBound : WithTop ℚ) : NodeParameters E :=
  { p with maxMarginDuration := min maxMarginDurationUpperBound p.maxMarginDuration }

def startTime : WithTop ℚ := p.timeData.earliestReachableTime

def maxDepartureTimeChange : WithTop ℚ :=
  min p.timeData.maxDepartureDelayingWithoutConflict
    ((p.timeData.stopTimeData.map (·.maxDepartureDelayBeforeStop)).min?.getD ⊤)

variable (extraTimePadding : ℚ)

def endRangeDepartureTimeChange : WithTop ℚ :=
  p.startTime + p.maxDepartureTimeChange + extraTimePadding

def endRangeExtraStopTime : WithTop ℚ :=
  p.startTime + p.timeData.maxDepartureDelayingWithoutConflict + extraTimePadding

def endRangeExtraTravelTime : WithTop ℚ :=
  p.endRangeExtraStopTime extraTimePadding + p.maxMarginDuration

def visitedRangeMapFromParameters : Option VisitedRangeMap :=
  VisitedRangeMap.markAsVisited p.startTime (p.endRangeDepartureTimeChange extraTimePadding)
    (p.endRangeExtraStopTime extraTimePadding) (p.endRangeExtraTravelTime extraTimePadding)
    p.timeData.totalStopDuration p.nodeCost

end NodeParameters

structure VisitedNodes (E : Type) where
  minDelay : ℚ
  visitedRangesPerLocation : Fingerprint E → Option VisitedRangeMap := fun _ => none

namespace VisitedNodes

section Model

variable {E : Type} [DecidableEq E] (nodes : VisitedNodes E) (p : NodeParameters E)

/-- Without an explorer the least number of passed steps is 0. The outer `none` is an exception. -/
def isVisited : Option Bool :=
  if p.fingerprint.waypointIndex < 0 then some true
  else
    match nodes.visitedRangesPerLocation p.fingerprint with
    | none => some false
    | some visitedRanges => do
        let newMap ← (p.withClippedMarginDuration 0).visitedRangeMapFromParameters 0
        visitedRanges.isVisited newMap

def markAsVisited : Option (VisitedNodes E) := do
  let newRangeMap ← p.visitedRangeMapFromParameters nodes.minDelay
  let visitedRanges := (nodes.visitedRangesPerLocation p.fingerprint).getD RangeMap.empty
  some { nodes with
    visitedRangesPerLocation := update nodes.visitedRangesPerLocation p.fingerprint
      (some (visitedRanges.putAll newRangeMap)) }

/-- The calls of `markAsVisited` from the start on. -/
def run (minDelay : ℚ) (calls : List (NodeParameters E)) : Option (VisitedNodes E) :=
  calls.foldlM markAsVisited { minDelay }

end Model

end VisitedNodes

/-! ### What one node reaches -/

namespace NodeParameters

variable {E : Type}

/-- The node reaches the place with the given cost: the departure is delayed, then stops are made
    longer, then margins are added. -/
def Reaches (p : NodeParameters E) (extraTimePadding : ℚ)
    (place : Place (WithTop ℚ)) (cost : VisitedRange) : Prop :=
  (below p.startTime ∈ place ∧ above (p.endRangeDepartureTimeChange extraTimePadding) ∉ place ∧
    cost = .VisitedWithDepartureTimeChange p.nodeCost p.timeData.totalStopDuration) ∨
  (above (p.endRangeDepartureTimeChange extraTimePadding) ∈ place ∧
    below (p.endRangeExtraStopTime extraTimePadding) ∉ place ∧
    ∃ s : ℚ, p.endRangeDepartureTimeChange extraTimePadding = ↑s ∧
      cost = .VisitedWithAddedStopTime ⟨p.timeData.totalStopDuration - s⟩ p.nodeCost) ∨
  (above (p.endRangeDepartureTimeChange extraTimePadding) ∈ place ∧
    below (p.endRangeExtraStopTime extraTimePadding) ∈ place ∧
    below (p.endRangeExtraTravelTime extraTimePadding) ∉ place ∧
    ∃ s : ℚ, p.endRangeExtraStopTime extraTimePadding = ↑s ∧
      cost = .VisitedWithAddedTravelTime ⟨p.nodeCost - s⟩ p.timeData.totalStopDuration)

section Reaches

variable {p : NodeParameters E} {pad : ℚ} {map : VisitedRangeMap}
  {place : Place (WithTop ℚ)} {v x : VisitedRange}

theorem endDeparture_le_endStop (p : NodeParameters E) (pad : ℚ) :
    p.endRangeDepartureTimeChange pad ≤ p.endRangeExtraStopTime pad := by
  unfold endRangeDepartureTimeChange endRangeExtraStopTime maxDepartureTimeChange
  gcongr
  exact min_le_left _ _

variable (hmap : p.visitedRangeMapFromParameters pad = some map)

include hmap in
theorem holdsAt_iff_reaches : map.HoldsAt place v ↔ p.Reaches pad place v :=
  holdsAt_markAsVisited hmap (p.endDeparture_le_endStop pad)

include hmap in
theorem covers_iff : map.Covers place ↔ below p.startTime ∈ place ∧
      markedEnd (p.endRangeDepartureTimeChange pad) (p.endRangeExtraStopTime pad)
        (p.endRangeExtraTravelTime pad) ∉ place :=
  covers_markAsVisited hmap (p.endDeparture_le_endStop pad)

include hmap in
theorem leftClosed : map.LeftClosed :=
  leftClosed_of_covers fun _ => covers_iff hmap

include hmap in
/-- Everything that is reached, as one range. -/
theorem exists_span :
    ∃ r : Range (WithTop ℚ), span map.entries = some r ∧ ∀ place, map.Covers place ↔ r.Has place := by
  have hstart := start_le_of_markAsVisited hmap
  have hlt : below p.startTime < markedEnd (p.endRangeDepartureTimeChange pad)
      (p.endRangeExtraStopTime pad) (p.endRangeExtraTravelTime pad) :=
    lt_max_of_lt_left (below_lt_above.mpr hstart)
  have hcovers : ∀ place, map.Covers place ↔ Range.Has ⟨_, _, hlt⟩ place := fun place => covers_iff hmap
  exact ⟨_, RangeMap.span_eq hcovers, hcovers⟩

/-- Without margins there is no place left for them. -/
theorem not_travel_of_clipped (p : NodeParameters E) (hstop : below (p.endRangeExtraStopTime pad) ∈ place)
    (htravel : below ((p.withClippedMarginDuration 0).endRangeExtraTravelTime pad) ∉ place) : False := by
  have hlt := below_lt_below.mp (lt_of_place hstop htravel)
  refine absurd hlt (not_lt.mpr ?_)
  calc (p.withClippedMarginDuration 0).endRangeExtraTravelTime pad
      ≤ p.endRangeExtraStopTime pad + 0 := by
        unfold endRangeExtraTravelTime
        gcongr
        · exact le_rfl
        · exact min_le_left _ _
    _ = p.endRangeExtraStopTime pad := add_zero _

theorem constantTravelTime_of_clipped
    (hmap : (p.withClippedMarginDuration 0).visitedRangeMapFromParameters pad = some map) :
    ∀ n ∈ map.entries, n.value.ConstantTravelTime := by
  intro n hn
  have hreaches := (holdsAt_iff_reaches hmap).mp ⟨n, hn, has_lower n.range, rfl⟩
  rcases hreaches with ⟨-, -, hvalue⟩ | ⟨-, -, s, -, hvalue⟩ | ⟨-, hstop, htravel, -⟩
  · rw [hvalue]
    trivial
  · rw [hvalue]
    trivial
  · exact (p.not_travel_of_clipped hstop htravel).elim

/-- With padding a node reaches at least what it reaches without margins, at no higher cost. -/
theorem Reaches.padded (hpad : 0 ≤ pad) (hstart : p.startTime ≤ p.endRangeDepartureTimeChange 0)
    (hx : (p.withClippedMarginDuration 0).Reaches 0 place x) :
    ∃ v, p.Reaches pad place v ∧ ∀ t, PlaceOf t place → v.evaluateAtTime t ≤ x.evaluateAtTime t := by
  have hpad' : (0 : WithTop ℚ) ≤ pad := coe_nonneg.mpr hpad
  have hdeparture : p.endRangeDepartureTimeChange pad = p.endRangeDepartureTimeChange 0 + pad := by
    simp [endRangeDepartureTimeChange]
  have hstop : p.endRangeExtraStopTime pad = p.endRangeExtraStopTime 0 + pad := by
    simp [endRangeExtraStopTime]
  rcases hx with ⟨hs, hd, rfl⟩ | ⟨hd, hs, s, hfinite, rfl⟩ | ⟨-, hs, ht, -⟩
  · refine ⟨_, .inl ⟨hs, fun h => hd (place.lower ?_ h), rfl⟩, fun _ _ => le_rfl⟩
    exact above_le_above.mpr (hdeparture ▸ le_add_of_nonneg_right hpad')
  · have hs' : below (p.endRangeExtraStopTime pad) ∉ place := fun h =>
      hs (place.lower (below_le_below.mpr (hstop ▸ le_add_of_nonneg_right hpad')) h)
    have hfinite' : p.endRangeDepartureTimeChange 0 = ↑s := hfinite
    by_cases hd' : above (p.endRangeDepartureTimeChange pad) ∈ place
    · refine ⟨_, .inr (.inl ⟨hd', hs', s + pad, ?_, rfl⟩), fun t _ => ?_⟩
      · rw [hdeparture, hfinite', coe_add]
      · refine Prod.Lex.toLex_mono ⟨le_rfl, add_le_add (coe_le_coe.mpr ?_) le_rfl⟩
        simp only [withClippedMarginDuration]
        linarith
    · have hd₀ : above (p.endRangeDepartureTimeChange 0) ∈ place := hd
      refine ⟨_, .inl ⟨place.lower (below_le_above.mpr hstart) hd₀, hd', rfl⟩, fun t hplace => ?_⟩
      -- the stop time grows from the end of the departure times on
      refine (evaluateAtTime_stop_start _ _ s).ge.trans
        (evaluateAtTime_mono _ ?_)
      rw [hfinite'] at hd₀
      exact le_of_above_mem hplace hd₀
  · exact (p.not_travel_of_clipped hs ht).elim

theorem start_le_endDeparture (hpad : 0 ≤ pad) (hdelay : 0 ≤ p.timeData.maxDepartureDelayingWithoutConflict)
    (hstops : ∀ s ∈ p.timeData.stopTimeData, 0 ≤ s.maxDepartureDelayBeforeStop) :
    p.startTime ≤ p.endRangeDepartureTimeChange pad := by
  have hchange : 0 ≤ p.maxDepartureTimeChange := by
    refine le_min hdelay ?_
    cases hmin : (p.timeData.stopTimeData.map (·.maxDepartureDelayBeforeStop)).min? with
    | none => exact le_top
    | some m =>
      obtain ⟨s, hs, rfl⟩ := mem_map.mp (min?_mem hmin)
      exact hstops s hs
  calc p.startTime ≤ p.startTime + p.maxDepartureTimeChange := le_add_of_nonneg_right hchange
    _ ≤ p.endRangeDepartureTimeChange pad := le_add_of_nonneg_right (coe_nonneg.mpr hpad)

/-- What is reached at infinity is reached from some time on. -/
theorem Reaches.eventually (h : p.Reaches pad place v) (hplace : PlaceOf ⊤ place) :
    ∃ a : ℚ, ∀ t : ℚ, a < t → p.Reaches pad (atKey t) v := by
  have hbefore : ∀ (t : ℚ) {c : Cut (WithTop ℚ)}, c ∉ place → c ∉ atKey (t : WithTop ℚ) := by
    intro t c hc hle
    have hlt : c < below ⊤ := hle.trans_lt (below_lt_below.mpr (WithTop.coe_lt_top t))
    rcases hplace with rfl | rfl
    · exact hc hlt.le
    · exact hc hlt
  rcases h with ⟨-, hd, hv⟩ | ⟨-, hs, a, ha, hv⟩ | ⟨-, -, hm, a, ha, hv⟩
  · refine ⟨p.timeData.earliestReachableTime, fun t hat => .inl ⟨?_, hbefore t hd, hv⟩⟩
    exact below_le_below.mpr (coe_le_coe.mpr hat.le)
  · refine ⟨a, fun t hat => .inr (.inl ⟨?_, hbefore t hs, a, ha, hv⟩)⟩
    exact above_le_below.mpr (ha ▸ coe_lt_coe.mpr hat)
  · refine ⟨a, fun t hat => .inr (.inr ⟨?_, ?_, hbefore t hm, a, ha, hv⟩)⟩
    · exact above_le_below.mpr
        (((p.endDeparture_le_endStop pad).trans ha.le).trans_lt (coe_lt_coe.mpr hat))
    · exact below_le_below.mpr (ha ▸ coe_le_coe.mpr hat.le)

end Reaches

end NodeParameters

/-! ### What is stored -/

namespace VisitedNodes

variable {E : Type} {nodes nodes' : VisitedNodes E} {p q : NodeParameters E}
  {f : Fingerprint E} {place : Place (WithTop ℚ)} {v w : VisitedRange}

/-- The location has been visited at that cost. -/
def Says (nodes : VisitedNodes E) (f : Fingerprint E) (place : Place (WithTop ℚ)) (v : VisitedRange) :
    Prop :=
  ∃ m, nodes.visitedRangesPerLocation f = some m ∧ m.HoldsAt place v

def LeftClosed (nodes : VisitedNodes E) : Prop :=
  ∀ f m, nodes.visitedRangesPerLocation f = some m → m.LeftClosed

theorem Says.eq (h : nodes.Says f place v) (h' : nodes.Says f place w) : v = w := by
  obtain ⟨m, hm, hv⟩ := h
  obtain ⟨m', hm', hw⟩ := h'
  cases hm.symm.trans hm'
  exact RangeMap.HoldsAt.eq hv hw

/-- A node is visited when all that it reaches is stored, at no higher cost. -/
theorem isVisited_eq_true_iff (hclosed : nodes.LeftClosed) (hindex : 0 ≤ p.fingerprint.waypointIndex) :
    nodes.isVisited p = some true ↔
      (∃ map, (p.withClippedMarginDuration 0).visitedRangeMapFromParameters 0 = some map) ∧
      ∀ place x, (p.withClippedMarginDuration 0).Reaches 0 place x →
        ∃ v, nodes.Says p.fingerprint place v ∧
          ∀ t, PlaceOf t place → v.evaluateAtTime t ≤ x.evaluateAtTime t := by
  rw [isVisited, if_neg hindex.not_gt]
  cases hmap : (p.withClippedMarginDuration 0).visitedRangeMapFromParameters 0 with
  | none => cases nodes.visitedRangesPerLocation p.fingerprint <;> simp
  | some map =>
    obtain ⟨r, hspan, hcovers⟩ := NodeParameters.exists_span hmap
    simp only [← NodeParameters.holdsAt_iff_reaches hmap]
    cases hm : nodes.visitedRangesPerLocation p.fingerprint with
    | none =>
      -- something is reached, but nothing is stored
      obtain ⟨x, hx⟩ := (hcovers _).mpr (has_lower r)
      refine ⟨fun h => (nomatch h), fun ⟨_, h⟩ => ?_⟩
      obtain ⟨v, ⟨m, hm', -⟩, -⟩ := h _ x hx
      exact nomatch hm.symm.trans hm'
    | some m =>
      have hsaid : ∀ place v, nodes.Says p.fingerprint place v ↔ m.HoldsAt place v := by
        simp [Says, hm]
      refine (VisitedRangeMap.isVisited_eq_true_iff (hclosed _ m hm) hspan
        (NodeParameters.constantTravelTime_of_clipped hmap)).trans ?_
      simp only [hsaid, ← hcovers]
      constructor
      · rintro ⟨hcover, hcost⟩
        refine ⟨⟨map, rfl⟩, fun place x hx => ?_⟩
        obtain ⟨v, hv⟩ := hcover place ⟨x, hx⟩
        exact ⟨v, hv, fun t hplace => hcost t place hplace v x hv hx⟩
      · rintro ⟨-, h⟩
        refine ⟨fun place ⟨x, hx⟩ => ?_, fun t place hplace v x hv hx => ?_⟩
        · obtain ⟨v, hv, -⟩ := h place x hx
          exact ⟨v, hv⟩
        · obtain ⟨v', hv', hcost⟩ := h place x hx
          rw [RangeMap.HoldsAt.eq hv hv']
          exact hcost t hplace

variable [DecidableEq E]

theorem exists_map_of_markAsVisited (h : nodes.markAsVisited q = some nodes') :
    ∃ map, q.visitedRangeMapFromParameters nodes.minDelay = some map ∧ nodes' = { nodes with
        visitedRangesPerLocation := update nodes.visitedRangesPerLocation q.fingerprint
          (some (((nodes.visitedRangesPerLocation q.fingerprint).getD RangeMap.empty).putAll map)) } := by
  obtain ⟨map, hmap, hnodes⟩ := bind_eq_some_iff.mp h
  exact ⟨map, hmap, (some.inj hnodes).symm⟩

/-- `markAsVisited` stores all that the node reaches, over what was stored. -/
theorem says_markAsVisited (h : nodes.markAsVisited q = some nodes') :
    nodes'.Says f place v ↔ (f = q.fingerprint ∧ q.Reaches nodes.minDelay place v) ∨
      ((f = q.fingerprint → ∀ w, ¬ q.Reaches nodes.minDelay place w) ∧ nodes.Says f place v) := by
  obtain ⟨map, hmap, rfl⟩ := exists_map_of_markAsVisited h
  simp only [Says, ← NodeParameters.holdsAt_iff_reaches hmap]
  by_cases hf : f = q.fingerprint
  · subst hf
    simp only [update_self, some.injEq, exists_eq_left', RangeMap.holdsAt_putAll,
      true_and, forall_const, RangeMap.Covers, not_exists]
    cases nodes.visitedRangesPerLocation q.fingerprint with
    | none => simp [RangeMap.holdsAt_empty]
    | some m => simp
  · simp [hf]

theorem leftClosed_markAsVisited (hclosed : nodes.LeftClosed)
    (h : nodes.markAsVisited q = some nodes') : nodes'.LeftClosed := by
  obtain ⟨map, hmap, rfl⟩ := exists_map_of_markAsVisited h
  intro f m hm
  by_cases hf : f = q.fingerprint
  · subst hf
    simp only [update_self, some.injEq] at hm
    subst hm
    refine VisitedRangeMap.LeftClosed.putAll ?_ (NodeParameters.leftClosed hmap)
    cases hold : nodes.visitedRangesPerLocation q.fingerprint with
    | none => exact fun t ⟨v, hv⟩ => (RangeMap.holdsAt_empty hv).elim
    | some m => exact hclosed _ m hold
  · exact hclosed f m (by simpa [hf] using hm)

/-- A node of a path without stops. -/
def passing (start delay cost : ℚ) : NodeParameters Unit where
  fingerprint := ⟨(), 0, 0⟩
  timeData :=
    { earliestReachableTime := start
      maxDepartureDelayingWithoutConflict := ↑delay
      maxFirstDepartureDelaying := ↑delay
      timeOfNextConflictAtLocation := ↑(start + delay)
      totalRunningTime := cost
      departureTime := start - cost
      stopTimeData := [] }
  maxMarginDuration := 0

section Run

variable {minDelay : ℚ} {calls : List (NodeParameters E)}

theorem run_concat : run minDelay (calls ++ [q]) = some nodes' ↔
    ∃ nodes, run minDelay calls = some nodes ∧ nodes.markAsVisited q = some nodes' := by
  simp [run, bind_eq_some_iff]

theorem run_inv (h : run minDelay calls = some nodes) : nodes.LeftClosed ∧ nodes.minDelay = minDelay := by
  induction calls using reverseRecOn generalizing nodes with
  | nil =>
    obtain ⟨⟩ := h
    exact ⟨fun _ _ hm => (nomatch hm), rfl⟩
  | append_singleton calls q ih =>
    obtain ⟨before, hbefore, hq⟩ := run_concat.mp h
    obtain ⟨hclosed, hdelay⟩ := ih hbefore
    refine ⟨leftClosed_markAsVisited hclosed hq, ?_⟩
    obtain ⟨map, -, rfl⟩ := exists_map_of_markAsVisited hq
    exact hdelay

/-- A node that has just been marked is visited, whatever has been marked before. -/
theorem isVisited_markAsVisited (hdelay : 0 ≤ minDelay) (hrun : run minDelay calls = some nodes)
    (p : NodeParameters E) (hdeparture : 0 ≤ p.timeData.maxDepartureDelayingWithoutConflict)
    (hstops : ∀ s ∈ p.timeData.stopTimeData, 0 ≤ s.maxDepartureDelayBeforeStop) :
    ∃ nodes', nodes.markAsVisited p = some nodes' ∧ nodes'.isVisited p = some true := by
  obtain ⟨hclosed, rfl⟩ := run_inv hrun
  have hstart := p.start_le_endDeparture hdelay hdeparture hstops
  have hstart₀ := p.start_le_endDeparture le_rfl hdeparture hstops
  have hmark : ∃ nodes', nodes.markAsVisited p = some nodes' := by
    rw [markAsVisited, NodeParameters.visitedRangeMapFromParameters, VisitedRangeMap.markAsVisited,
      dif_pos hstart]
    exact ⟨_, rfl⟩
  obtain ⟨nodes', hnodes'⟩ := hmark
  refine ⟨nodes', hnodes', ?_⟩
  rcases lt_or_ge p.fingerprint.waypointIndex 0 with hindex | hindex
  · exact if_pos hindex
  · refine (isVisited_eq_true_iff (leftClosed_markAsVisited hclosed hnodes') hindex).mpr
      ⟨⟨_, dif_pos hstart₀⟩, fun place x hx => ?_⟩
    obtain ⟨v, hv, hcost⟩ := hx.padded hdelay hstart₀
    exact ⟨v, (says_markAsVisited hnodes').mpr (.inl ⟨rfl, hv⟩), hcost⟩

/-- The second node is marked over the first one, at a higher cost. -/
theorem isVisited_markAsVisited_passing : ∃ nodes nodes', run 0 [passing 0 10 100] = some nodes ∧
    nodes.markAsVisited (passing 5 10 200) = some nodes' ∧
      nodes'.isVisited (passing 5 10 200) = some true := by
  obtain ⟨nodes, hnodes⟩ := isSome_iff_exists.mp
    (show (run 0 [passing 0 10 100]).isSome by decide +kernel)
  obtain ⟨nodes', h⟩ := isVisited_markAsVisited le_rfl hnodes (passing 5 10 200) (by decide +kernel)
    (fun _ hs => nomatch hs)
  exact ⟨nodes, nodes', hnodes, h⟩

end Run

/-! ### When a node stays visited -/

/-- The new costs are not above the stored ones. -/
def Improves (nodes : VisitedNodes E) (q : NodeParameters E) : Prop :=
  ∀ (t : ℚ) place v w, PlaceOf t place → nodes.Says q.fingerprint place v →
    q.Reaches nodes.minDelay place w → w.evaluateAtTime t ≤ v.evaluateAtTime t

/-- What is visited stays visited when the new costs are not above the stored ones. -/
theorem isVisited_of_improves (hclosed : nodes.LeftClosed) (hq : nodes.markAsVisited q = some nodes')
    (himproves : nodes.Improves q) (hp : nodes.isVisited p = some true) :
    nodes'.isVisited p = some true := by
  rcases lt_or_ge p.fingerprint.waypointIndex 0 with hindex | hindex
  · exact if_pos hindex
  obtain ⟨⟨map, hmap⟩, hcovered⟩ := (isVisited_eq_true_iff hclosed hindex).mp hp
  refine (isVisited_eq_true_iff (leftClosed_markAsVisited hclosed hq) hindex).mpr
    ⟨⟨map, hmap⟩, fun place x hx => ?_⟩
  obtain ⟨v, hv, hcost⟩ := hcovered place x hx
  by_cases hnew : p.fingerprint = q.fingerprint ∧ ∃ w, q.Reaches nodes.minDelay place w
  · obtain ⟨hf, w, hw⟩ := hnew
    refine ⟨w, (says_markAsVisited hq).mpr (.inl ⟨hf, hw⟩), fun t hplace => ?_⟩
    induction t with
    | coe t => exact (himproves t place v w hplace (hf ▸ hv) hw).trans (hcost t hplace)
    | top =>
      -- the costs are in order at all late times
      obtain ⟨n, hn, -, rfl⟩ := (NodeParameters.holdsAt_iff_reaches hmap).mpr hx
      obtain ⟨a, ha⟩ := hx.eventually hplace
      obtain ⟨b, hb⟩ := hw.eventually hplace
      refine evaluateAtTime_le_top
        (NodeParameters.constantTravelTime_of_clipped hmap n hn) (a := max a b) fun t ht => ?_
      obtain ⟨v, hv, hcost⟩ := hcovered _ _ (ha t ((le_max_left a b).trans_lt ht))
      exact (himproves t _ v w (.inl rfl) (hf ▸ hv) (hb t ((le_max_right a b).trans_lt ht))).trans
        (hcost t (.inl rfl))
  · refine ⟨v, (says_markAsVisited hq).mpr (.inr ⟨fun hf w hw => hnew ⟨hf, w, hw⟩, hv⟩), hcost⟩

/-- A node at the location that reaches the times from `start` to `stop` by making its only stop
    longer. -/
def waiting (f : Fingerprint E) (start stop cost stops : ℚ) : NodeParameters E where
  fingerprint := f
  timeData :=
    { earliestReachableTime := start
      maxDepartureDelayingWithoutConflict := ↑(stop - start)
      maxFirstDepartureDelaying := 0
      timeOfNextConflictAtLocation := ↑stop
      totalRunningTime := cost
      departureTime := start - cost - stops
      stopTimeData := [⟨stops, stops, 0⟩] }
  maxMarginDuration := 0

section Waiting

variable {start stop cost stops : ℚ}

omit [DecidableEq E]

theorem endDeparture_waiting (hle : start ≤ stop) :
    ((waiting f start stop cost stops).withClippedMarginDuration 0).endRangeDepartureTimeChange 0 =
      ↑start := by
  have hmin : min ((stop - start : ℚ) : WithTop ℚ) 0 = 0 :=
    min_eq_right (coe_nonneg.mpr (sub_nonneg.mpr hle))
  calc _ = (start : WithTop ℚ) + min ↑(stop - start) 0 + ((0 : ℚ) : WithTop ℚ) := rfl
    _ = ↑start := by rw [hmin, coe_zero, add_zero, add_zero]

theorem endStop_waiting :
    ((waiting f start stop cost stops).withClippedMarginDuration 0).endRangeExtraStopTime 0 = ↑stop := by
  calc _ = (start : WithTop ℚ) + ↑(stop - start) + ((0 : ℚ) : WithTop ℚ) := rfl
    _ = ↑stop := by rw [coe_zero, add_zero, ← coe_add, add_sub_cancel]

/-- The stop duration grows with the time. -/
theorem reaches_waiting (hle : start ≤ stop) {x : VisitedRange}
    (hx : ((waiting f start stop cost stops).withClippedMarginDuration 0).Reaches 0 place x) :
    below ↑start ∈ place ∧ max (above ↑start) (below ↑stop) ∉ place ∧ ∀ t, PlaceOf t place →
      ↑start ≤ t ∧ t ≤ ↑stop ∧ x.evaluateAtTime t = toLex (↑cost, ↑(stops - start) + t) := by
  have hcost : ((waiting f start stop cost stops).withClippedMarginDuration 0).nodeCost = cost :=
    add_zero cost
  have hstops : ((waiting f start stop cost stops).withClippedMarginDuration 0).timeData.totalStopDuration
      = stops := add_zero stops
  rw [max_mem_place]
  rcases hx with ⟨hs, hd, hvalue⟩ | ⟨hd, hs, s, hfinite, hvalue⟩ | ⟨-, hs, ht, -⟩
  · rw [endDeparture_waiting hle] at hd
    refine ⟨hs, fun h => hd h.1, fun t hplace => ?_⟩
    obtain ⟨hlo, hup⟩ := endpoint_le_of_placeOf (r := ⟨_, _, lt_of_place hs hd⟩) hplace
      ⟨hs, hd⟩
    obtain rfl : ↑start = t := le_antisymm hlo hup
    refine ⟨le_rfl, coe_le_coe.mpr hle, ?_⟩
    rw [hvalue, hcost, hstops, ← coe_add, sub_add_cancel, evaluateAtTime]
  · rw [endDeparture_waiting hle] at hd hfinite
    rw [endStop_waiting] at hs
    obtain rfl : start = s := WithTop.coe_inj.mp hfinite
    refine ⟨place.lower (below_le_above.mpr le_rfl) hd, fun h => hs h.2, fun t hplace => ?_⟩
    obtain ⟨hlo, hup⟩ := endpoint_le_of_placeOf (r := ⟨_, _, lt_of_place hd hs⟩) hplace
      ⟨hd, hs⟩
    refine ⟨hlo, hup, ?_⟩
    rw [hvalue, hcost, hstops, evaluateAtTime, LinearFunction.apply]
  · exact ((waiting f start stop cost stops).not_travel_of_clipped hs ht).elim

theorem exists_map_waiting (f : Fingerprint E) (cost stops : ℚ) (hle : start ≤ stop) :
    ∃ map, ((waiting f start stop cost stops).withClippedMarginDuration 0).visitedRangeMapFromParameters 0
      = some map :=
  ⟨_, dif_pos (endDeparture_waiting hle).ge⟩

end Waiting

/-- Just before a place of a range the range goes on for a while. -/
theorem exists_start {r : Range (WithTop ℚ)} {t : ℚ} (hplace : PlaceOf t place) (hhas : r.Has place)
    {δ : ℚ} (hδ : 0 < δ) : ∃ start : ℚ, start ≤ t ∧ t - start < δ ∧ r.lower ≤ below ↑start ∧
      max (above ↑start) (below ↑t) ≤ r.upper ∧ below ↑start ∈ place ∧
      max (above ↑start) (below ↑t) ∉ place := by
  rcases hplace with rfl | rfl
  · obtain ⟨hlower, hupper⟩ := has_atKey.mp hhas
    have hmax : max (above ↑t) (below ↑t) = above (t : WithTop ℚ) := max_eq_left (below_le_above.mpr le_rfl)
    refine ⟨t, le_rfl, by rwa [sub_self], hlower, ?_, LowerSet.mem_Iic_iff.mpr le_rfl, ?_⟩
    · rw [hmax]
      exact above_le_of_below_lt hupper
    · rw [hmax]
      exact fun h => lt_irrefl _ (above_le_below.mp h)
  · obtain ⟨hlower, hupper⟩ := has_beforeKey.mp hhas
    have hlt : max (endpoint r.lower) ↑(t - δ) < (t : WithTop ℚ) :=
      max_lt (endpoint_lt_of_lt_below hlower) (coe_lt_coe.mpr (by linarith))
    obtain ⟨start, hafter, hbefore⟩ := exists_between hlt
    obtain ⟨start, rfl⟩ := WithTop.ne_top_iff_exists.mp hbefore.ne_top
    obtain ⟨hlo, hδ'⟩ := max_lt_iff.mp hafter
    have hmax : max (above ↑start) (below ↑t) = below (t : WithTop ℚ) :=
      max_eq_right (above_le_below.mpr hbefore)
    rw [coe_lt_coe] at hδ'
    refine ⟨start, (coe_lt_coe.mp hbefore).le, by linarith, le_below_of_endpoint_lt hlo, ?_,
      LowerSet.mem_Iio_iff.mpr (below_lt_below.mpr hbefore), ?_⟩
    · rwa [hmax]
    · rw [hmax]
      exact fun h => lt_irrefl _ (LowerSet.mem_Iio_iff.mp h)

/-- If every node that is visited stays visited, then the new costs are not above the stored ones. -/
theorem improves_of_isVisited (hclosed : nodes.LeftClosed) (hq : nodes.markAsVisited q = some nodes')
    (hindex : 0 ≤ q.fingerprint.waypointIndex)
    (hstays : ∀ p, nodes.isVisited p = some true → nodes'.isVisited p = some true) :
    nodes.Improves q := by
  intro t place v w hplace hv hw
  by_contra hnot
  obtain ⟨cost, stops, hcost⟩ := v.exists_evaluateAtTime t
  obtain ⟨δ, hδ, hgap⟩ := w.exists_gap (hcost ▸ not_le.mp hnot)
  obtain ⟨m, hm, e, he, hhas, rfl⟩ := hv
  obtain ⟨start, hle, hlate, hlower, hupper, hin, hout⟩ := exists_start hplace hhas hδ
  -- a node that waits up to the place costs a bit more than the stored one, but less than the new one
  obtain ⟨map, hmap⟩ := exists_map_waiting q.fingerprint cost stops hle
  have hbefore : nodes.isVisited (waiting q.fingerprint start t cost stops) = some true := by
    refine (isVisited_eq_true_iff hclosed (p := waiting q.fingerprint start t cost stops) hindex).mpr
      ⟨⟨map, hmap⟩, fun place' x hx => ?_⟩
    obtain ⟨hin', hout', htimes⟩ := reaches_waiting hle hx
    refine ⟨e.value, ⟨m, hm, e, he, ⟨place'.lower hlower hin', fun h =>
      hout' (place'.lower hupper h)⟩, rfl⟩, fun t' hplace' => ?_⟩
    obtain ⟨hfrom, hto, heval⟩ := htimes t' hplace'
    calc e.value.evaluateAtTime t' ≤ e.value.evaluateAtTime t := e.value.evaluateAtTime_mono hto
      _ = toLex (↑cost, ↑(stops - start) + ↑start) := by rw [hcost, ← coe_add, sub_add_cancel]
      _ ≤ toLex (↑cost, ↑(stops - start) + t') := Prod.Lex.toLex_mono ⟨le_rfl, add_le_add le_rfl hfrom⟩
      _ = x.evaluateAtTime t' := heval.symm
  obtain ⟨-, hafter⟩ := (isVisited_eq_true_iff (leftClosed_markAsVisited hclosed hq)
    (p := waiting q.fingerprint start t cost stops) hindex).mp (hstays _ hbefore)
  have hcovers : map.Covers place := by
    refine (NodeParameters.covers_iff hmap).mpr ⟨hin, fun h => hout ?_⟩
    rw [markedEnd, endDeparture_waiting hle, endStop_waiting, max_mem_place, max_mem_place] at h
    exact max_mem_place.mpr ⟨h.1, h.2.1⟩
  obtain ⟨x, hx⟩ := hcovers
  rw [NodeParameters.holdsAt_iff_reaches hmap] at hx
  obtain ⟨w', hw', hcost'⟩ := hafter place x hx
  obtain rfl := Says.eq hw' ((says_markAsVisited hq).mpr (.inl ⟨rfl, hw⟩))
  obtain ⟨-, -, htimes⟩ := reaches_waiting hle hx
  obtain ⟨-, -, heval⟩ := htimes t hplace
  refine absurd (hcost' t hplace) (not_le.mpr ?_)
  rw [heval, ← coe_add, sub_add_eq_add_sub, add_sub_assoc]
  exact hgap _ hlate

section Calls

variable {minDelay : ℚ} {calls : List (NodeParameters E)}

def VisitedAfter (minDelay : ℚ) (calls : List (NodeParameters E)) (p : NodeParameters E) : Prop :=
  ((run minDelay calls).bind fun nodes => nodes.isVisited p) = some true

/-- Every call succeeds, and is made on a node that is not visited just before. -/
def EachUnvisited (minDelay : ℚ) (calls : List (NodeParameters E)) : Prop :=
  ∀ before q, before ++ [q] <+: calls →
    ((run minDelay before).bind fun nodes => nodes.isVisited q) = some false ∧
      (run minDelay (before ++ [q])).isSome

/-- Where both nodes reach a place of the same location, the later one does at no higher cost. -/
def NeverWorse (minDelay : ℚ) (p q : NodeParameters E) : Prop :=
  p.fingerprint = q.fingerprint → ∀ (t : ℚ) place v w, PlaceOf t place →
    p.Reaches minDelay place v → q.Reaches minDelay place w → w.evaluateAtTime t ≤ v.evaluateAtTime t

/-- All that is stored comes from one of the calls. -/
theorem exists_reaches_of_says (h : run minDelay calls = some nodes) (hv : nodes.Says f place v) :
    ∃ p ∈ calls, p.fingerprint = f ∧ p.Reaches minDelay place v := by
  induction calls using reverseRecOn generalizing nodes with
  | nil =>
    obtain ⟨⟩ := h
    obtain ⟨m, hm, -⟩ := hv
    exact nomatch hm
  | append_singleton calls q ih =>
    obtain ⟨before, hbefore, hq⟩ := run_concat.mp h
    rcases (says_markAsVisited hq).mp hv with ⟨rfl, hreaches⟩ | ⟨-, hv⟩
    · rw [(run_inv hbefore).2] at hreaches
      exact ⟨q, by simp, rfl, hreaches⟩
    · obtain ⟨p, hp, hf, hreaches⟩ := ih hbefore hv
      exact ⟨p, mem_append_left _ hp, hf, hreaches⟩

/-- As long as the costs improve, what is stored is at least as good as what any call reached. -/
theorem exists_says_of_reaches (hcalls : calls.Pairwise (NeverWorse minDelay))
    (h : run minDelay calls = some nodes) {t : ℚ} (hplace : PlaceOf t place) (hp : p ∈ calls)
    (hv : p.Reaches minDelay place v) :
    ∃ w, nodes.Says p.fingerprint place w ∧ w.evaluateAtTime t ≤ v.evaluateAtTime t := by
  induction calls using reverseRecOn generalizing nodes with
  | nil => cases hp
  | append_singleton calls q ih =>
    obtain ⟨hbefore, -, hworse⟩ := pairwise_append.mp hcalls
    obtain ⟨before, hrun, hq⟩ := run_concat.mp h
    have hdelay := (run_inv hrun).2
    rcases mem_append.mp hp with hp | hp
    · by_cases hnew : p.fingerprint = q.fingerprint ∧ ∃ w, q.Reaches before.minDelay place w
      · obtain ⟨hf, w, hw⟩ := hnew
        refine ⟨w, (says_markAsVisited hq).mpr (.inl ⟨hf, hw⟩), ?_⟩
        exact hworse p hp q (mem_singleton_self q) hf t place v w hplace hv (hdelay ▸ hw)
      · obtain ⟨w, hw, hle⟩ := ih hbefore hrun hp
        exact ⟨w, (says_markAsVisited hq).mpr (.inr ⟨fun hf w hw => hnew ⟨hf, w, hw⟩, hw⟩), hle⟩
    · obtain rfl := mem_singleton.mp hp
      exact ⟨v, (says_markAsVisited hq).mpr (.inl ⟨rfl, hdelay ▸ hv⟩), le_rfl⟩

/-- Visited nodes stay visited exactly when no call reaches a place that an earlier call at the same
    location reached, at a higher cost. -/
theorem isVisited_persists_iff (hcalls : EachUnvisited minDelay calls) :
    (∀ before later, before <+: later → later <+: calls →
      ∀ p, VisitedAfter minDelay before p → VisitedAfter minDelay later p) ↔
      calls.Pairwise (NeverWorse minDelay) := by
  constructor
  · intro hstays
    induction calls using reverseRecOn with
    | nil => exact .nil
    | append_singleton calls q ih =>
      have hpairwise := ih
        (fun before q hle => hcalls before q (hle.trans (prefix_append _ _)))
        (fun before later hle hle' => hstays before later hle (hle'.trans (prefix_append _ _)))
      obtain ⟨hunvisited, hsome⟩ := hcalls calls q prefix_rfl
      obtain ⟨nodes', hrun'⟩ := isSome_iff_exists.mp hsome
      obtain ⟨nodes, hrun, hmark⟩ := run_concat.mp hrun'
      obtain ⟨hclosed, hdelay⟩ := run_inv hrun
      have hindex : 0 ≤ q.fingerprint.waypointIndex := by
        by_contra hneg
        rw [hrun, bind_some, isVisited, if_pos (not_le.mp hneg)] at hunvisited
        cases hunvisited
      have himproves := improves_of_isVisited hclosed hmark hindex fun p hp => by
        have hlater := hstays calls _ (prefix_append _ _) prefix_rfl p
        rw [VisitedAfter, VisitedAfter, hrun, hrun'] at hlater
        exact hlater hp
      refine pairwise_append.mpr ⟨hpairwise, pairwise_singleton _ _, ?_⟩
      intro p hp q' hq' hf t place v w hplace hv hw
      obtain rfl := mem_singleton.mp hq'
      obtain ⟨v', hv', hle⟩ := exists_says_of_reaches hpairwise hrun hplace hp hv
      exact (himproves t place v' w hplace (hf ▸ hv') (hdelay ▸ hw)).trans hle
  · rintro hpairwise before later ⟨rest, rfl⟩ hlater p hp
    induction rest using reverseRecOn with
    | nil => rwa [append_nil]
    | append_singleton rest q ih =>
      rw [← append_assoc] at hlater ⊢
      have hvisited := ih ((prefix_append _ _).trans hlater)
      obtain ⟨nodes', hrun'⟩ := isSome_iff_exists.mp (hcalls _ q hlater).2
      obtain ⟨nodes, hrun, hmark⟩ := run_concat.mp hrun'
      obtain ⟨hclosed, hdelay⟩ := run_inv hrun
      rw [VisitedAfter, hrun] at hvisited
      rw [VisitedAfter, hrun']
      refine isVisited_of_improves hclosed hmark ?_ hvisited
      intro t place v w hplace hv hw
      obtain ⟨p', hp', hf, hreaches⟩ := exists_reaches_of_says hrun hv
      have hworse := (pairwise_append.mp (hpairwise.sublist hlater.sublist)).2.2 p' hp' q
        (mem_singleton_self q)
      exact hworse hf t place v w hplace hreaches (hdelay ▸ hw)

theorem eachUnvisited_pair {p q : NodeParameters E}
    (hp : ((run minDelay []).bind fun nodes => nodes.isVisited p) = some false)
    (hq : ((run minDelay [p]).bind fun nodes => nodes.isVisited q) = some false)
    (hrun : (run minDelay [p, q]).isSome) : EachUnvisited minDelay [p, q] := by
  rintro before q' ⟨rest, h⟩
  rcases before with _ | ⟨a, _ | ⟨b, before⟩⟩
  · obtain ⟨rfl, rfl⟩ := cons.inj h
    refine ⟨hp, ?_⟩
    obtain ⟨nodes', hrun⟩ := isSome_iff_exists.mp hrun
    obtain ⟨nodes, hnodes, -⟩ := run_concat.mp (show run minDelay ([q'] ++ [q]) = some nodes' from hrun)
    exact isSome_iff_exists.mpr ⟨nodes, hnodes⟩
  · obtain ⟨rfl, htail⟩ := cons.inj h
    obtain ⟨rfl, rfl⟩ := cons.inj htail
    exact ⟨hq, hrun⟩
  · simp at h

open NodeParameters in
/-- Without stops and margins, only the departure is delayed. -/
theorem passing_reaches {start delay cost : ℚ} {place : Place (WithTop ℚ)} {v : VisitedRange}
    (h : (passing start delay cost).Reaches 0 place v) : v = VisitedWithDepartureTimeChange cost 0 := by
  have hstop : (passing start delay cost).endRangeExtraStopTime 0 =
      (passing start delay cost).endRangeDepartureTimeChange 0 := by
    simp [endRangeExtraStopTime, endRangeDepartureTimeChange, maxDepartureTimeChange, passing]
  rcases h with ⟨-, -, rfl⟩ | ⟨hin, hout, -⟩ | ⟨-, hin, hout, -⟩
  · simp [passing, nodeCost, TimeData.totalStopDuration, stopDurations]
  · rw [hstop] at hout
    exact absurd (place.lower (below_le_above.mpr le_rfl) hin) hout
  · rw [endRangeExtraTravelTime, show (passing start delay cost).maxMarginDuration = 0 from rfl,
      add_zero] at hout
    exact absurd hin hout

/-- A first node that is followed by a cheaper one. -/
theorem isVisited_persists_iff_passing : EachUnvisited 0 [passing 0 10 200, passing 5 10 100] ∧
    ∀ before later, before <+: later → later <+: [passing 0 10 200, passing 5 10 100] →
      ∀ p, VisitedAfter 0 before p → VisitedAfter 0 later p := by
  have h : EachUnvisited 0 [passing 0 10 200, passing 5 10 100] :=
    eachUnvisited_pair (by decide +kernel) (by decide +kernel) (by decide +kernel)
  refine ⟨h, (isVisited_persists_iff h).mpr (pairwise_pair.mpr ?_)⟩
  rintro - t place v w - hv hw
  rw [passing_reaches hv, passing_reaches hw, evaluateAtTime, evaluateAtTime]
  decide +kernel

/-- A node that is visited no longer after a more expensive one. -/
theorem isVisited_lost : EachUnvisited 0 [passing 0 10 100, passing 5 10 200] ∧
    VisitedAfter 0 [passing 0 10 100] (passing 0 10 100) ∧
    ¬ VisitedAfter 0 [passing 0 10 100, passing 5 10 200] (passing 0 10 100) := by
  refine ⟨eachUnvisited_pair ?_ ?_ ?_, ?_, ?_⟩
  · decide +kernel
  · decide +kernel
  · decide +kernel
  · unfold VisitedAfter
    decide +kernel
  · unfold VisitedAfter
    decide +kernel

end Calls

end VisitedNodes

end Osrd.Stdcm
