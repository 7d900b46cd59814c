import Osrd.SimilarTrains.Combination
import Osrd.SimilarTrains.Matching
import Osrd.SimilarTrains.Traffic

/-! Model of the `similar_trains` endpoint (`editoast/.../timetable/similar_trains.rs`), after the checks of
    the user and of the rolling stock.

    The candidates of each segment are put in a graph, in which the segment is explored. A segment whose
    exploration is blocked gets no item in the response, so the items then leave a gap, unless the blocked
    segments in a row come back to where they started (`similarTrains_covers_iff`). -/

namespace Osrd.SimilarTrains

open EdgeWalk List Option

/-! ### The code -/

structure Request.Waypoint where
  id : OperationalPoint
  stop : Bool

namespace Request

def squashStep (result : List Waypoint) (waypoint : Waypoint) : List Waypoint :=
  match result.getLast? with
  | none => result ++ [waypoint]
  | some prev =>
      if prev.id = waypoint.id then
        result.dropLast ++ [{ prev with stop := prev.stop || waypoint.stop }]
      else result ++ [waypoint]

def squashSuccessiveWaypoints (waypoints : List Waypoint) : List Waypoint :=
  waypoints.foldl squashStep []

def Waypoint.toNewTrain (w : Waypoint) : NewTrain.Waypoint :=
  ⟨w.id, if w.stop then .Stop else .PassingBy⟩

def Waypoint.toGraph (w : Waypoint) : Graph.Waypoint := ⟨w.id, w.stop⟩

end Request

structure TrainInfo where
  trainName : String
  startTime : ℤ
deriving DecidableEq

structure SimilarTrainItem where
  train : Option TrainInfo
  beginAt : OperationalPoint
  endAt : OperationalPoint
deriving DecidableEq

inductive SimilarTrainsError
  | EmptyTrainsTraffic
  | InvalidPath (error : InvalidTrain)
deriving DecidableEq

/-- One item for the whole train, without a similar train. -/
def defaultResponse (newTrain : NewTrain) : List SimilarTrainItem :=
  [⟨none, newTrain.beginAt.op, newTrain.endAt.op⟩]

/-- `none` is the failed `expect` on `clamp_path`. -/
def pushClamped (segment : Segment) (graph : Graph) (pastTrain : PastTrain) : Option Graph :=
  (pastTrain.clampPath segment).map (graph.push pastTrain.id)

/-- The graph of the candidates of a segment. -/
def buildGraph (segment : Segment) (pastTrains : List PastTrain) : Option Graph :=
  pastTrains.foldlM (pushClamped segment) .default

variable (astar : Graph.Astar)

/-- The trains found for a segment. The outer `none` is a panic; `some none` is a blocked exploration, for
    which no item is recorded. -/
def matchSegment (segment : Segment) (graph : Graph) : Option (Option (Finset Id)) :=
  match MatchingState.tryNew segment graph with
  | none => some (some ∅)
  | some state =>
      (explore astar (state.path.length + 1) state).map fun
        | .Found trains => some trains
        | .Blocked => none

def segmentGraph (pool : Pool) (segment : Segment) : Option (Segment × Graph) :=
  (buildGraph segment (pool.trainsInSegment segment)).map (segment, ·)

def segmentTrains (graph : Segment × Graph) : Option (Segment × Option (Finset Id)) :=
  (matchSegment astar graph.1 graph.2).map (graph.1, ·)

def recorded (found : Segment × Option (Finset Id)) : Option (Segment × Finset Id) :=
  found.2.map (found.1, ·)

/-- The segments with their trains, without the blocked ones. All the graphs are built first. -/
def segmentsTrains (pool : Pool) (segments : List Segment) : Option (List (Segment × Finset Id)) :=
  (segments.mapM (segmentGraph pool)).bind fun graphs =>
    (graphs.mapM (segmentTrains astar)).map fun found => found.filterMap recorded

/-- One of the trains of the segment that were chosen. The order of the hash set is that of the ids. -/
def chosenTrain (trains similarTrains : Finset Id) : Option Id :=
  match (trains ∩ similarTrains).min with
  | ⊤ => none
  | (id : Id) => some id

def responseItem (traffic : TrainsTrafficPool) (similarTrains : Finset Id)
    (found : Segment × Finset Id) : SimilarTrainItem where
  train := (chosenTrain found.2 similarTrains).bind fun id =>
    (traffic.getById id).map fun t => ⟨t.name, t.startTime⟩
  beginAt := found.1.beginAt.op
  endAt := found.1.endAt.op

def buildResponse (traffic : TrainsTrafficPool) (newTrain : NewTrain)
    (trains : List (Segment × Finset Id)) : Option (List SimilarTrainItem) :=
  if trains.isEmpty then some (defaultResponse newTrain)
  else
    (decideBestTrainCombination ((trains.map (·.2)).filter (· ≠ ∅))).map fun similarTrains =>
      trains.map (responseItem traffic similarTrains)

def respond (traffic : TrainsTrafficPool) (compatibleTrains : List TrainTraffic)
    (newTrain : NewTrain) : Option (List SimilarTrainItem) :=
  if compatibleTrains.isEmpty then some (defaultResponse newTrain)
  else
    newTrain.intoSegments.bind fun segments =>
      (segmentsTrains astar (Pool.fromIter (compatibleTrains.map (·.train))) segments).bind
        (buildResponse traffic newTrain)

/-- The items of the response; `none` is a panic. -/
def similarTrains (traffic : TrainsTrafficPool) (rollingStock : RollingStockCharacteristics)
    (waypoints : List Request.Waypoint) : Option (Except SimilarTrainsError (List SimilarTrainItem)) :=
  if traffic.len = 0 then some (.error .EmptyTrainsTraffic)
  else
    let waypoints := Request.squashSuccessiveWaypoints waypoints
    match NewTrain.new (waypoints.map (·.toNewTrain)) with
    | .error error => some (.error (.InvalidPath error))
    | .ok newTrain =>
        (respond astar traffic (traffic.findCompatibleTrains rollingStock (waypoints.map (·.toGraph)))
          newTrain).map .ok

/-! ### The graph of a segment -/

variable {train : PastTrain}

section Segment

variable {segment : Segment} {pastTrains : List PastTrain}

/-- The points follow each other in what is used of some candidate, or are the same. -/
def LinkedIn (segment : Segment) (pastTrains : List PastTrain) (u v : OperationalPoint) : Prop :=
  u = v ∨ ∃ train ∈ pastTrains, ∃ slice, train.clampPath segment = some slice ∧
    (u, v) ∈ Graph.opPairs slice

/-- The graph holds what follows each other in some candidate. -/
structure GraphOf (segment : Segment) (pastTrains : List PastTrain) (g : Graph) : Prop where
  has (op : OperationalPoint) : g.Has op ↔ ∃ train ∈ pastTrains, ∃ slice,
    train.clampPath segment = some slice ∧ ∃ e ∈ Graph.opPairs slice, op = e.1 ∨ op = e.2
  edges (e : OperationalPoint × OperationalPoint) : e ∈ g.edges ↔ ∃ train ∈ pastTrains, ∃ slice,
    train.clampPath segment = some slice ∧ e ∈ Graph.opPairs slice

theorem graphOf_default : GraphOf segment [] .default :=
  ⟨fun op => by simp [Graph.Has, Graph.default], fun e => by simp [Graph.default]⟩

variable {g : Graph}

variable (h : GraphOf segment pastTrains g)

include h in
theorem GraphOf.push {slice : List Graph.Waypoint} (hslice : train.clampPath segment = some slice) :
    GraphOf segment (pastTrains ++ [train]) (g.push train.id slice) := by
  obtain ⟨hnodes, hedges⟩ := g.push_spec train.id slice
  refine ⟨fun op => ?_, fun e => ?_⟩
  · rw [hnodes, h.has]
    simp [hslice]
  · rw [hedges, h.edges]
    simp [hslice]

theorem buildGraph_eq_some (h : buildGraph segment pastTrains = some g) :
    (∀ train ∈ pastTrains, ∃ slice, train.clampPath segment = some slice) ∧
      GraphOf segment pastTrains g := by
  induction pastTrains using reverseRecOn generalizing g with
  | nil =>
    obtain rfl : Graph.default = g := by simpa [buildGraph] using h
    exact ⟨by simp, graphOf_default⟩
  | append_singleton pastTrains train ih =>
    rw [buildGraph, foldlM_append, bind_eq_bind, bind_eq_some_iff] at h
    obtain ⟨before, hbefore, h⟩ := h
    have hpush : pushClamped segment before train = some g := by simpa using h
    obtain ⟨slice, hslice, rfl⟩ := map_eq_some_iff.mp hpush
    obtain ⟨hall, hgraph⟩ := ih hbefore
    refine ⟨fun t ht => ?_, hgraph.push hslice⟩
    rcases mem_append.mp ht with ht | ht
    · exact hall t ht
    · exact ⟨slice, mem_singleton.mp ht ▸ hslice⟩

theorem buildGraph_isSome (h : ∀ train ∈ pastTrains, ∃ slice, train.clampPath segment = some slice) :
    ∃ g, buildGraph segment pastTrains = some g := by
  have hstep : ∀ (g : Graph) train, train ∈ pastTrains → True →
      ∃ g', pushClamped segment g train = some g' ∧ True := by
    intro g train htrain _
    obtain ⟨slice, hslice⟩ := h train htrain
    exact ⟨g.push train.id slice, by simp [pushClamped, hslice], trivial⟩
  obtain ⟨g, hg, -⟩ := Partial.foldlM_inv (s := Graph.default) hstep trivial
  exact ⟨g, hg⟩

include h in
theorem GraphOf.closed : g.Closed := by
  intro e he
  obtain ⟨train, htrain, slice, hslice, he⟩ := (h.edges e).mp he
  exact (h.has e.2).mpr ⟨train, htrain, slice, hslice, e, he, .inr rfl⟩

include h in
theorem GraphOf.linked : g.Linked = LinkedIn segment pastTrains := by
  funext u v
  rw [Graph.Linked, LinkedIn, h.edges]

include h in
/-- The start of the segment is in the graph when some candidate goes from there to another place. -/
theorem GraphOf.has_start (hall : ∀ train ∈ pastTrains, ∃ slice, train.clampPath segment = some slice) :
    g.Has segment.beginAt.op ↔ pastTrains ≠ [] ∧ segment.beginAt.op ≠ segment.endAt.op := by
  rw [h.has]
  constructor
  · rintro ⟨train, htrain, slice, hslice, e, he, -⟩
    refine ⟨ne_nil_of_mem htrain, ?_⟩
    rcases PastTrain.clampPath_eq_some.mp hslice with
      ⟨pre, w, mid, w', post, -, rfl, hop, -, -, hbefore⟩ | ⟨-, pre, w, post, -, rfl, -⟩
    · exact hop ▸ hbefore w (by simp)
    · simp [Graph.opPairs] at he
  · rintro ⟨hne, hops⟩
    obtain ⟨train, htrain⟩ := exists_mem_of_ne_nil _ hne
    obtain ⟨slice, hslice⟩ := hall train htrain
    refine ⟨train, htrain, slice, hslice, ?_⟩
    rcases PastTrain.clampPath_eq_some.mp hslice with
      ⟨pre, w, mid, w', post, -, rfl, hop, -⟩ | ⟨hsame, -⟩
    · cases mid with
      | nil => exact ⟨(w.op, w'.op), by simp [Graph.opPairs], .inl hop.symm⟩
      | cons v mid => exact ⟨(w.op, v.op), by simp [Graph.opPairs], .inl hop.symm⟩
    · exact absurd hsame hops

/-- The exploration of the segment is blocked: there are candidates, but two waypoints in a row of the new
    train do not follow the last one reached in any of them. -/
def SegmentBlocked (segment : Segment) (pastTrains : List PastTrain) : Prop :=
  pastTrains ≠ [] ∧ segment.beginAt.op ≠ segment.endAt.op ∧
    Stuck (LinkedIn segment pastTrains) false segment.beginAt.op
      ((segment.passingBy ++ [segment.endAt]).map (·.op))

theorem matchSegment_spec (h : buildGraph segment pastTrains = some g) :
    ∃ trains, matchSegment astar segment g = some trains ∧
      (trains = none ↔ SegmentBlocked segment pastTrains) := by
  obtain ⟨hall, hgraph⟩ := buildGraph_eq_some h
  have hstart := hgraph.has_start hall
  rw [matchSegment, MatchingState.tryNew]
  cases hnode : g.getNode segment.beginAt.op with
  | none =>
    have hmissing := Graph.getNode_eq_none.mp hnode
    rw [hstart] at hmissing
    exact ⟨some ∅, rfl, by simpa [SegmentBlocked] using fun hne hops => absurd ⟨hne, hops⟩ hmissing⟩
  | some node =>
    have hhas := Graph.getNode_isSome.mp (by rw [hnode]; rfl)
    let state : MatchingState :=
      ⟨segment.passingBy ++ [segment.endAt], g, node.trains, segment.beginAt, none⟩
    have hexplore := @explore_spec astar (state.path.length + 1) state hgraph.closed hhas
      (Nat.lt_succ_self _)
    obtain ⟨hne, hops⟩ := hstart.mp hhas
    simp only [state, hgraph.linked] at hexplore
    simp only [map_some]
    rcases hexplore with ⟨hstuck, hexplore⟩ | ⟨hstuck, trains, hexplore⟩
    · exact ⟨none, by rw [hexplore]; rfl, iff_of_true rfl ⟨hne, hops, hstuck⟩⟩
    · refine ⟨some trains, by rw [hexplore]; rfl, iff_of_false (by simp) ?_⟩
      exact fun hblocked => hstuck hblocked.2.2

end Segment

/-! ### All the segments -/

section Segments

variable {pool : Pool} {segments : List Segment}

/-- The candidate reaches the end of the segment only after it has been at its begin. -/
def PastTrain.InOrder (train : PastTrain) (segment : Segment) : Prop :=
  ∃ pre w post, train.path = pre ++ w :: post ∧ w.op = segment.beginAt.op ∧
    ∀ v ∈ pre, v.op ≠ segment.endAt.op

theorem exists_of_mem_stopPairs {u v : OperationalPoint} (h : (u, v) ∈ train.stopPairs) :
    (∃ w ∈ train.path, w.op = u) ∧ ∃ w ∈ train.path, w.op = v := by
  have hmem : ∀ op ∈ train.iterStops.map (·.op), ∃ w ∈ train.path, w.op = op := by
    intro op hop
    obtain ⟨w, hw, rfl⟩ := mem_map.mp hop
    exact ⟨w, mem_of_mem_filter hw, rfl⟩
  obtain ⟨hu, hv⟩ := of_mem_zip h
  exact ⟨hmem u hu, hmem v (mem_of_mem_tail hv)⟩

theorem clampPath_isSome_iff {segment : Segment}
    (h : (segment.beginAt.op, segment.endAt.op) ∈ train.stopPairs) :
    (∃ slice, train.clampPath segment = some slice) ↔ train.InOrder segment := by
  constructor
  · rintro ⟨slice, hslice⟩
    rcases PastTrain.clampPath_eq_some.mp hslice with
      ⟨pre, w, mid, w', post, heq, -, hop, -, -, hbefore⟩ | ⟨hsame, pre, w, post, heq, -, hop, hbefore⟩
    · exact ⟨pre, w, _, heq, hop, fun v hv => hbefore v (mem_append_left _ hv)⟩
    · exact ⟨pre, w, post, heq, hop, hsame ▸ hbefore⟩
  · rintro ⟨pre, w, post, heq, hop, hbefore⟩
    obtain ⟨hbegin, hend⟩ := exists_of_mem_stopPairs h
    obtain ⟨s, hs⟩ := PastTrain.exists_rank hbegin
    obtain ⟨e, he⟩ := PastTrain.exists_rank hend
    have hle : s ≤ e := by
      refine (PastTrain.rank_le hs heq hop).trans (not_lt.mp fun hlt => ?_)
      obtain ⟨pre', w', post', heq', rfl, hop', -⟩ := PastTrain.rank_eq_some.mp he
      exact hbefore w' (PastTrain.mem_of_append_eq (heq'.symm.trans heq) hlt) hop'
    simp [PastTrain.clampPath, hs, he, hle]

theorem segmentsTrains_eq_some {trains : List (Segment × Finset Id)}
    (h : segmentsTrains astar pool segments = some trains) :
    ∀ segment ∈ segments, ∀ train ∈ pool.trainsInSegment segment,
      ∃ slice, train.clampPath segment = some slice := by
  obtain ⟨graphs, hgraphs, -⟩ := bind_eq_some_iff.mp h
  intro segment hsegment
  obtain ⟨graph, hgraph⟩ := Partial.exists_of_mapM hgraphs hsegment
  obtain ⟨g, hg, -⟩ := map_eq_some_iff.mp hgraph
  exact (buildGraph_eq_some hg).1

open Classical in
/-- What is recorded: the segments that are not blocked. -/
theorem segmentsTrains_spec (h : ∀ segment ∈ segments, ∀ train ∈ pool.trainsInSegment segment,
      ∃ slice, train.clampPath segment = some slice) :
    ∃ trains, segmentsTrains astar pool segments = some trains ∧ trains.map (·.1) = segments.filter
        fun segment => ¬ SegmentBlocked segment (pool.trainsInSegment segment) := by
  induction segments with
  | nil => exact ⟨[], rfl, rfl⟩
  | cons segment segments ih =>
    obtain ⟨hsegment, h⟩ := forall_mem_cons.mp h
    obtain ⟨trains, htrains, hkept⟩ := ih h
    obtain ⟨graphs, hgraphs, hmatch⟩ := bind_eq_some_iff.mp htrains
    obtain ⟨found, hfound, rfl⟩ := map_eq_some_iff.mp hmatch
    obtain ⟨g, hg⟩ := buildGraph_isSome hsegment
    obtain ⟨r, hr, hblocked⟩ := matchSegment_spec astar hg
    refine ⟨((segment, r) :: found).filterMap recorded, ?_, ?_⟩
    · simp [segmentsTrains, segmentGraph, hg, hgraphs, segmentTrains, hr, hfound]
    · cases r with
      | none =>
        rw [filterMap_cons_none rfl, filter_cons_of_neg (by simpa using hblocked.mp rfl)]
        exact hkept
      | some r =>
        have hopen : ¬ SegmentBlocked segment (pool.trainsInSegment segment) :=
          fun h => by simpa using hblocked.mpr h
        have hrecorded : recorded (segment, some r) = some (segment, r) := rfl
        rw [filterMap_cons_some hrecorded, filter_cons_of_pos (by simpa using hopen), map_cons, hkept]

end Segments

/-! ### The response -/

/-- The items follow each other from the first waypoint of the train to the last one. -/
def Covers (newTrain : NewTrain) (items : List SimilarTrainItem) : Prop :=
  items ≠ [] ∧ IsWalk SimilarTrainItem.beginAt SimilarTrainItem.endAt newTrain.beginAt.op items
    newTrain.endAt.op

theorem covers_defaultResponse (newTrain : NewTrain) : Covers newTrain (defaultResponse newTrain) :=
  ⟨by simp [defaultResponse], rfl, rfl⟩

variable (traffic : TrainsTrafficPool)

theorem buildResponse_spec (newTrain : NewTrain) (trains : List (Segment × Finset Id)) :
    ∃ items, buildResponse traffic newTrain trains = some items ∧ (Covers newTrain items ↔ trains = [] ∨
        IsWalk (·.beginAt.op) (·.endAt.op) newTrain.beginAt.op (trains.map (·.1)) newTrain.endAt.op) := by
  rw [buildResponse]
  cases trains with
  | nil => exact ⟨_, rfl, iff_of_true (covers_defaultResponse newTrain) (.inl rfl)⟩
  | cons found trains =>
    obtain ⟨similarTrains, hsimilar, -⟩ := decideBestTrainCombination_spec
      (((found :: trains).map (·.2)).filter (· ≠ ∅))
      (fun s hs => Finset.nonempty_iff_ne_empty.mpr (by simpa using (mem_filter.mp hs).2))
    refine ⟨(found :: trains).map (responseItem traffic similarTrains), by rw [hsimilar]; rfl, ?_⟩
    rw [Covers, IsWalk.of_map, IsWalk.of_map]
    simp only [ne_eq, map_eq_nil_iff, reduceCtorEq, not_false_eq_true, true_and, false_or]
    rfl

/-- The candidates of a segment among the compatible trains. -/
def candidates (compatibleTrains : List TrainTraffic) (segment : Segment) : List PastTrain :=
  (Pool.fromIter (compatibleTrains.map (·.train))).trainsInSegment segment

theorem candidates_nil (segment : Segment) : candidates [] segment = [] :=
  eq_nil_iff_forall_not_mem.mpr fun train htrain => by
    simpa using (Pool.mem_trainsInSegment.mp htrain).1

theorem inOrder_iff {trains : List TrainTraffic} {segments : List Segment} :
    (∀ segment ∈ segments, ∀ train ∈ candidates trains segment, train.InOrder segment) ↔
      ∀ segment ∈ segments, ∀ train ∈ candidates trains segment,
        ∃ slice, train.clampPath segment = some slice := by
  refine forall₂_congr fun segment _ => forall₂_congr fun train htrain => ?_
  exact (clampPath_isSome_iff (Pool.mem_trainsInSegment.mp htrain).2).symm

open Classical in
theorem respond_covers_iff (trains : List TrainTraffic)
    (newTrain : NewTrain) {segments : List Segment} (hsegments : newTrain.intoSegments = some segments)
    (hwalk : IsWalk (·.beginAt.op) (·.endAt.op) newTrain.beginAt.op segments newTrain.endAt.op) :
    (∃ items, respond astar traffic trains newTrain = some items ∧ Covers newTrain items) ↔
      (∀ segment ∈ segments, ∀ train ∈ candidates trains segment, train.InOrder segment) ∧
      ClosedRuns (·.beginAt.op) (·.endAt.op)
        (fun segment => ¬ SegmentBlocked segment (candidates trains segment)) segments := by
  rw [← isWalk_filter_iff hwalk]
  cases trains with
  | nil =>
    -- without any train nothing is blocked
    refine iff_of_true ⟨_, rfl, covers_defaultResponse newTrain⟩ ⟨?_, .inr ?_⟩
    · intro segment _ train htrain
      simp [candidates_nil] at htrain
    · rwa [filter_eq_self.mpr fun segment _ => by simp [SegmentBlocked, candidates_nil]]
  | cons t trains =>
    rw [inOrder_iff]
    have hrespond : respond astar traffic (t :: trains) newTrain =
        (segmentsTrains astar (Pool.fromIter ((t :: trains).map (·.train))) segments).bind
          (buildResponse traffic newTrain) := by
      simp [respond, hsegments]
    rw [hrespond]
    constructor
    · rintro ⟨items, hitems, hcovers⟩
      obtain ⟨trains, htrains, hitems⟩ := bind_eq_some_iff.mp hitems
      have hall := segmentsTrains_eq_some astar htrains
      obtain ⟨trains', htrains', hkept⟩ := segmentsTrains_spec astar hall
      cases htrains.symm.trans htrains'
      obtain ⟨items', hitems', hiff⟩ := buildResponse_spec traffic newTrain trains
      cases hitems.symm.trans hitems'
      refine ⟨hall, (hiff.mp hcovers).imp (fun hnil => ?_) fun hkeptWalk => ?_⟩
      · exact hkept.symm.trans (by rw [hnil]; rfl)
      · exact hkept ▸ hkeptWalk
    · rintro ⟨hall, hwalk⟩
      obtain ⟨trains, htrains, hkept⟩ := segmentsTrains_spec astar hall
      obtain ⟨items, hitems, hiff⟩ := buildResponse_spec traffic newTrain trains
      refine ⟨items, by rw [htrains]; exact hitems, hiff.mpr (hwalk.imp (fun hnil => ?_) fun h => ?_)⟩
      · exact map_eq_nil_iff.mp (hkept.trans hnil)
      · exact hkept ▸ h

/-- The items cover the train iff no candidate is used the wrong way round and every run of blocked
    segments, unless all are, comes back to where it started. -/
theorem similarTrains_covers_iff (hlen : traffic.len ≠ 0)
    (rollingStock : RollingStockCharacteristics) (waypoints : List Request.Waypoint) (newTrain : NewTrain)
    (hnew : NewTrain.new ((Request.squashSuccessiveWaypoints waypoints).map (·.toNewTrain)) = .ok newTrain) :
    let trains := traffic.findCompatibleTrains rollingStock
      ((Request.squashSuccessiveWaypoints waypoints).map (·.toGraph))
    ∃ segments, newTrain.intoSegments = some segments ∧
      ((∃ items, similarTrains astar traffic rollingStock waypoints = some (.ok items) ∧
          Covers newTrain items) ↔
        (∀ segment ∈ segments, ∀ train ∈ candidates trains segment, train.InOrder segment) ∧
        ClosedRuns (·.beginAt.op) (·.endAt.op)
          (fun segment => ¬ SegmentBlocked segment (candidates trains segment))
          segments) := by
  intro trains
  obtain ⟨segments, hsegments, -, hwalk, -⟩ := newTrain.intoSegments_spec
  have hsimilar : similarTrains astar traffic rollingStock waypoints =
      (respond astar traffic trains newTrain).map .ok := by
    simp only [similarTrains, if_neg hlen, hnew, trains]
  refine ⟨segments, hsegments, ?_⟩
  rw [← respond_covers_iff astar traffic trains newTrain hsegments (hwalk.map NewTrain.Waypoint.op),
    hsimilar]
  simp

/-- One train, from `A` through `P` to `D` and on to `E`. -/
def oneTrain : TrainsTrafficPool :=
  (TrainsTrafficPool.newWithDate 0).addTrainTraffic ⟨"T", 1, "stock", "tag",
    ⟨1, [⟨"A", true⟩, ⟨"P", false⟩, ⟨"D", true⟩, ⟨"E", true⟩]⟩⟩

theorem similarTrains_covers_iff_one_train :
    let trains := oneTrain.findCompatibleTrains ⟨some "stock", none, by simp⟩
      [⟨"D", true⟩, ⟨"E", true⟩]
    ∃ segments, NewTrain.intoSegments
        ⟨[⟨"D", .Stop⟩, ⟨"E", .Stop⟩], by decide, by decide, by decide⟩ = some segments ∧
      (∀ segment ∈ segments, ∀ train ∈ candidates trains segment, train.InOrder segment) ∧
        ClosedRuns (·.beginAt.op) (·.endAt.op)
          (fun segment => ¬ SegmentBlocked segment (candidates trains segment)) segments := by
  obtain ⟨segments, hsegments, hiff⟩ := similarTrains_covers_iff .byLength oneTrain (by decide)
    ⟨some "stock", none, by simp⟩ [⟨"D", true⟩, ⟨"E", true⟩] _ rfl
  refine ⟨segments, hsegments, hiff.mp ⟨[⟨some ⟨"T", 1⟩, "D", "E"⟩], by decide +kernel, ?_⟩⟩
  exact ⟨by simp, rfl, rfl⟩

/-- The new train goes from `A` to `D` through two other points: this segment is not in the response. -/
theorem similarTrains_gap :
    ∃ newTrain, NewTrain.new [⟨"A", .Stop⟩, ⟨"X", .PassingBy⟩, ⟨"Y", .PassingBy⟩, ⟨"D", .Stop⟩,
        ⟨"E", .Stop⟩] = .ok newTrain ∧ similarTrains .byLength oneTrain ⟨some "stock", none, by simp⟩
        [⟨"A", true⟩, ⟨"X", false⟩, ⟨"Y", false⟩, ⟨"D", true⟩, ⟨"E", true⟩] =
          some (.ok [⟨some ⟨"T", 1⟩, "D", "E"⟩]) ∧ ¬ Covers newTrain [⟨some ⟨"T", 1⟩, "D", "E"⟩] := by
  refine ⟨⟨_, by decide, by decide, by decide⟩, rfl, by decide +kernel, ?_⟩
  rintro ⟨-, hbegin, -⟩
  revert hbegin
  decide +kernel

end Osrd.SimilarTrains
