import Mathlib.Data.Finset.Lattice.Basic
import Mathlib.Data.List.Range
import Osrd.SimilarTrains.Trains

/-! Model of the exploration of one segment (`editoast/.../similar_trains/graph.rs`).

    The candidates of the segment make a graph of operational points. The new train is followed in it from
    waypoint to waypoint, each of which has to be the current node or one of its successors. One waypoint
    may be skipped, two in a row may not: the exploration is then blocked (`explore_spec`). -/

namespace Osrd.SimilarTrains

open List

/-! ### The graph -/

structure GraphNode where
  waypoint : Graph.Waypoint
  trains : Finset Id
deriving DecidableEq

/-- Nodes and edges. `ops_index` gives one node to each operational point, which names it here. -/
structure Graph where
  nodes : List GraphNode
  edges : List (OperationalPoint × OperationalPoint)

namespace Graph

def default : Graph := ⟨[], []⟩

def getNode (g : Graph) (op : OperationalPoint) : Option GraphNode :=
  g.nodes.find? (·.waypoint.op = op)

/-- Adds the train to the node of the waypoint, which is created if it is missing. -/
def getOrCreateNode (g : Graph) (waypoint : Waypoint) (trainId : Id) : Graph :=
  if (g.getNode waypoint.op).isSome then
    { g with nodes := g.nodes.map fun n =>
        if n.waypoint.op = waypoint.op then { n with trains := insert trainId n.trains } else n }
  else { g with nodes := g.nodes ++ [⟨waypoint, {trainId}⟩] }

/-- `find_edge`, and `add_edge` if there is none. -/
def addEdge (g : Graph) (source target : OperationalPoint) : Graph :=
  if (source, target) ∈ g.edges then g else { g with edges := g.edges ++ [(source, target)] }

def pushPair (trainId : Id) (g : Graph) (pair : Waypoint × Waypoint) : Graph :=
  ((g.getOrCreateNode pair.1 trainId).getOrCreateNode pair.2 trainId).addEdge pair.1.op pair.2.op

def push (g : Graph) (trainId : Id) (waypoints : List Waypoint) : Graph :=
  (waypoints.zip waypoints.tail).foldl (pushPair trainId) g

/-- The walks with that number of edges. -/
def walks (g : Graph) : ℕ → OperationalPoint → OperationalPoint → List (List OperationalPoint)
  | 0, u, v => if u = v then [[u]] else []
  | n + 1, u, v =>
      (g.edges.filter (·.1 = u)).flatMap fun e => (g.walks n e.2 v).map (u :: ·)

/-- A search of the shortest path between two nodes (`petgraph::algo::astar` with unit costs), whichever it
    is among paths of one length. -/
structure Astar where
  path : Graph → OperationalPoint → OperationalPoint → Option (List OperationalPoint)
  /-- The answer is a walk. -/
  walk : ∀ {g u v p}, path g u v = some p → ∃ n, p ∈ g.walks n u v
  /-- No walk has fewer edges. -/
  shortest : ∀ {g u v p n q}, path g u v = some p → q ∈ g.walks n u v → p.length ≤ n + 1
  /-- A walk with no more edges than there are nodes is not missed. -/
  found : ∀ {g u v n q}, q ∈ g.walks n u v → n ≤ g.nodes.length → (path g u v).isSome

inductive TrainsOnPath
  | Trains (trains : Finset Id)
  | MissingInitialWaypoint
  | MissingTargetWaypoint
  | MaxDistanceExceeded
  | NoPathFound
deriving DecidableEq

/-- The trains of all the nodes. -/
def commonTrains (g : Graph) : Finset Id → List OperationalPoint → Finset Id
  | trains, [] => trains
  | trains, op :: path =>
      g.commonTrains (trains ∩ ((g.getNode op).map (·.trains)).getD ∅) path

def trainsOnPath (astar : Astar) (g : Graph) (initial target : OperationalPoint) (maxDistance : ℕ) :
    TrainsOnPath :=
  match g.getNode initial, g.getNode target with
  | none, _ => .MissingInitialWaypoint
  | some _, none => .MissingTargetWaypoint
  | some source, some _ =>
      match astar.path g initial target with
      | some path =>
          if path ≠ [] ∧ path.length ≤ maxDistance then
            .Trains (g.commonTrains source.trains path.tail)
          else .MaxDistanceExceeded
      | none => .NoPathFound

end Graph

/-! ### The state machine -/

structure MatchingState where
  path : List NewTrain.Waypoint
  graph : Graph
  correctTrainsSoFar : Finset Id
  currentWaypoint : NewTrain.Waypoint
  skipped : Option NewTrain.Waypoint

inductive Advancement
  | Advanced (state : MatchingState)
  | ReachedPathEnding (lastState : MatchingState)
  | IrremediablyBlocked (current targeted skipped : NewTrain.Waypoint)
  /-- The `unreachable!` of the source. -/
  | Unreachable

namespace MatchingState

def tryNew (segment : Segment) (graph : Graph) : Option MatchingState :=
  (graph.getNode segment.beginAt.op).map fun node =>
    ⟨segment.passingBy ++ [segment.endAt], graph, node.trains, segment.beginAt, none⟩

def advance (astar : Graph.Astar) (state : MatchingState) : Advancement :=
  match state.path with
  | [] => .ReachedPathEnding state
  | target :: path =>
      match state.graph.trainsOnPath astar state.currentWaypoint.op target.op 2, state.skipped with
      | .Trains trains, _ =>
          .Advanced { state with
            path, correctTrainsSoFar := state.correctTrainsSoFar ∩ trains
            currentWaypoint := target, skipped := none }
      | .MissingInitialWaypoint, _ => .Unreachable
      | _, none =>
          .Advanced { state with path, correctTrainsSoFar := ∅, skipped := some target }
      | _, some skipped => .IrremediablyBlocked state.currentWaypoint target skipped

end MatchingState

/-- How the exploration of a segment ends. -/
inductive Exploration
  | Found (trains : Finset Id)
  | Blocked

/-- The loop over `advance`, for at most the given number of turns; `none` is a panic. -/
def explore (astar : Graph.Astar) : ℕ → MatchingState → Option Exploration
  | 0, _ => none
  | fuel + 1, state =>
      match state.advance astar with
      | .Advanced state => explore astar fuel state
      | .ReachedPathEnding lastState => some (.Found lastState.correctTrainsSoFar)
      | .IrremediablyBlocked _ _ _ => some .Blocked
      | .Unreachable => none

/-! ### What is in the graph -/

namespace Graph

def Has (g : Graph) (op : OperationalPoint) : Prop := ∃ n ∈ g.nodes, n.waypoint.op = op

variable {g : Graph} {op : OperationalPoint}

theorem getNode_isSome : (g.getNode op).isSome ↔ g.Has op := by
  simp [getNode, Has]

theorem getNode_eq_none : g.getNode op = none ↔ ¬ g.Has op := by
  rw [← getNode_isSome, Option.not_isSome_iff_eq_none]

theorem getOrCreateNode_has {w : Waypoint} {trainId : Id} :
    (g.getOrCreateNode w trainId).Has op ↔ g.Has op ∨ op = w.op := by
  rw [getOrCreateNode]
  split
  · next h =>
    have hw := getNode_isSome.mp h
    have hsame : ∀ n : GraphNode, (if n.waypoint.op = w.op then
        { n with trains := insert trainId n.trains } else n).waypoint = n.waypoint := by
      intro n
      split <;> rfl
    constructor
    · rintro ⟨n, hn, rfl⟩
      obtain ⟨n', hn', rfl⟩ := mem_map.mp hn
      exact .inl ⟨n', hn', by rw [hsame]⟩
    · intro hop
      obtain ⟨n, hn, rfl⟩ : g.Has op := hop.elim id fun heq => heq ▸ hw
      exact ⟨_, mem_map_of_mem hn, by rw [hsame]⟩
  · simp [Has, eq_comm]

@[simp] theorem getOrCreateNode_edges (g : Graph) (w : Waypoint) (trainId : Id) :
    (g.getOrCreateNode w trainId).edges = g.edges := by
  rw [getOrCreateNode]
  split <;> rfl

theorem addEdge_has {u v op : OperationalPoint} : (g.addEdge u v).Has op ↔ g.Has op := by
  rw [addEdge]
  split <;> rfl

variable {u v : OperationalPoint}

theorem mem_addEdge_edges {e : OperationalPoint × OperationalPoint} :
    e ∈ (g.addEdge u v).edges ↔ e ∈ g.edges ∨ e = (u, v) := by
  rw [addEdge]
  split
  · next h =>
    constructor
    · exact .inl
    · rintro (he | rfl)
      · exact he
      · exact h
  · simp

/-- The operational points that follow each other. -/
def opPairs (waypoints : List Waypoint) : List (OperationalPoint × OperationalPoint) :=
  (waypoints.zip waypoints.tail).map fun pair => (pair.1.op, pair.2.op)

theorem push_spec (trainId : Id) (waypoints : List Waypoint) (g : Graph) :
    (∀ op, (g.push trainId waypoints).Has op ↔ g.Has op ∨ ∃ e ∈ opPairs waypoints, op = e.1 ∨ op = e.2) ∧
    ∀ e, e ∈ (g.push trainId waypoints).edges ↔ e ∈ g.edges ∨ e ∈ opPairs waypoints := by
  rw [push, opPairs]
  induction waypoints.zip waypoints.tail generalizing g with
  | nil => simp
  | cons pair pairs ih =>
    obtain ⟨hnodes, hedges⟩ := ih (pushPair trainId g pair)
    refine ⟨fun op => ?_, fun e => ?_⟩
    · rw [foldl_cons, hnodes, pushPair, addEdge_has, getOrCreateNode_has, getOrCreateNode_has]
      simp only [map_cons, mem_cons, exists_eq_or_imp]
      simp only [or_assoc]
    · rw [foldl_cons, hedges, pushPair, mem_addEdge_edges]
      simp only [getOrCreateNode_edges, map_cons, mem_cons, or_assoc]

/-! ### One step of the new train in the graph -/

theorem length_of_mem_walks {v : OperationalPoint} : ∀ {n : ℕ} {u : OperationalPoint}
    {path : List OperationalPoint}, path ∈ g.walks n u v → path.length = n + 1
  | 0, u, path, h => by
    rw [walks] at h
    split at h
    · simp [mem_singleton.mp h]
    · simp at h
  | n + 1, u, path, h => by
    rw [walks, mem_flatMap] at h
    obtain ⟨e, -, h⟩ := h
    obtain ⟨rest, hrest, rfl⟩ := mem_map.mp h
    simp [length_of_mem_walks hrest]

/-- The second waypoint is the node itself or one of its successors. -/
def Linked (g : Graph) (u v : OperationalPoint) : Prop := u = v ∨ (u, v) ∈ g.edges

variable {path : List OperationalPoint}

theorem walks_zero : path ∈ g.walks 0 u v ↔ u = v ∧ path = [u] := by
  rw [walks]
  split <;> simp [*]

theorem walks_one : path ∈ g.walks 1 u v ↔ (u, v) ∈ g.edges ∧ path = [u, v] := by
  rw [walks]
  simp only [mem_flatMap, mem_filter, mem_map, walks_zero, decide_eq_true_eq]
  constructor
  · rintro ⟨⟨s, t⟩, ⟨he, rfl⟩, _, ⟨rfl, rfl⟩, rfl⟩
    exact ⟨he, rfl⟩
  · rintro ⟨he, rfl⟩
    exact ⟨(u, v), ⟨he, rfl⟩, [v], ⟨rfl, rfl⟩, rfl⟩

/-- The walks are tried by their number of edges. -/
def Astar.byLength : Astar where
  path := fun g u v => (range (g.nodes.length + 1)).findSome? fun n => (g.walks n u v).head?
  walk := fun h => by
    obtain ⟨n, -, hhead⟩ := exists_of_findSome?_eq_some h
    exact ⟨n, mem_of_mem_head? hhead⟩
  shortest := fun {g u v p n q} h hq => by
    obtain ⟨before, m, after, hrange, hhead, hbefore⟩ := findSome?_eq_some_iff.mp h
    have hlength := length_of_mem_walks (mem_of_mem_head? hhead)
    by_contra hlt
    -- the number of edges of a shorter walk is tried before
    have hsorted := hrange ▸ pairwise_lt_range (n := g.nodes.length + 1)
    have hm : m ∈ range (g.nodes.length + 1) := hrange ▸ mem_append_right _ mem_cons_self
    have hn : n ∈ before ++ m :: after := hrange ▸ mem_range.mpr (by have := mem_range.mp hm; omega)
    rcases mem_append.mp hn with hn | hn
    · rw [head?_eq_none_iff.mp (hbefore n hn)] at hq
      cases hq
    · rcases mem_cons.mp hn with rfl | hn
      · omega
      · have := (pairwise_cons.mp (pairwise_append.mp hsorted).2.1).1 n hn
        omega
  found := fun hq hn => by
    rw [findSome?_isSome_iff]
    exact ⟨_, mem_range.mpr (Nat.lt_succ_of_le hn), isSome_head?.mpr (ne_nil_of_mem hq)⟩

variable (astar : Astar)

theorem astar_short (h : astar.path g u v = some path) (hlength : path.length ≤ 2) :
    (u = v ∧ path = [u]) ∨ (u, v) ∈ g.edges ∧ path = [u, v] := by
  obtain ⟨n, hmem⟩ := astar.walk h
  have hn := length_of_mem_walks hmem
  obtain rfl | rfl : n = 0 ∨ n = 1 := by omega
  · exact .inl (walks_zero.mp hmem)
  · exact .inr (walks_one.mp hmem)

theorem astar_of_linked (hnode : g.Has u) (h : g.Linked u v) :
    ∃ path, astar.path g u v = some path ∧ path ≠ [] ∧ path.length ≤ 2 := by
  obtain ⟨n, hn, q, hq⟩ : ∃ n ≤ 1, ∃ q, q ∈ g.walks n u v := by
    rcases h with hsame | hedge
    · exact ⟨0, by omega, [u], walks_zero.mpr ⟨hsame, rfl⟩⟩
    · exact ⟨1, le_rfl, [u, v], walks_one.mpr ⟨hedge, rfl⟩⟩
  obtain ⟨node, hnode, -⟩ := hnode
  obtain ⟨path, hpath⟩ := Option.isSome_iff_exists.mp
    (astar.found hq (hn.trans (length_pos_of_mem hnode)))
  obtain ⟨m, hmem⟩ := astar.walk hpath
  have hlength := length_of_mem_walks hmem
  have hshortest := astar.shortest hpath hq
  exact ⟨path, hpath, ne_nil_of_length_pos (by omega), by omega⟩

/-- Every edge leads to a node. -/
def Closed (g : Graph) : Prop := ∀ e ∈ g.edges, g.Has e.2

/-- The trains of the node of an operational point. -/
def trainsAt (g : Graph) (op : OperationalPoint) : Finset Id := ((g.getNode op).map (·.trains)).getD ∅

/-- From a node, trains are found iff the target is linked to it: those of the two nodes. -/
theorem trainsOnPath_spec (hclosed : g.Closed) (hu : g.Has u) :
    (g.Linked u v ∧ g.trainsOnPath astar u v 2 = .Trains (g.trainsAt u ∩ g.trainsAt v)) ∨
      ¬ g.Linked u v ∧ g.trainsOnPath astar u v 2 ∈
        [TrainsOnPath.MissingTargetWaypoint, .MaxDistanceExceeded, .NoPathFound] := by
  obtain ⟨source, hsource⟩ := Option.isSome_iff_exists.mp (getNode_isSome.mpr hu)
  cases htarget : g.getNode v with
  | none =>
    refine .inr ⟨?_, by simp [trainsOnPath, hsource, htarget]⟩
    rintro (rfl | hedge)
    · simp [hsource] at htarget
    · exact getNode_eq_none.mp htarget (hclosed _ hedge)
  | some target =>
    simp only [trainsOnPath, hsource, htarget]
    by_cases hlinked : g.Linked u v
    · obtain ⟨path, hastar, hne, hlength⟩ := astar_of_linked astar hu hlinked
      refine .inl ⟨hlinked, ?_⟩
      simp only [hastar]
      rcases astar_short astar hastar hlength with ⟨rfl, rfl⟩ | ⟨-, rfl⟩
      · simp [commonTrains, trainsAt, hsource]
      · simp [commonTrains, trainsAt, hsource]
    · refine .inr ⟨hlinked, ?_⟩
      cases hastar : astar.path g u v with
      | none => simp
      | some path =>
        have hlength : ¬ path.length ≤ 2 :=
          fun h => hlinked ((astar_short astar hastar h).imp And.left And.left)
        simp [hlength]

end Graph

/-! ### The whole exploration -/

/-- Following the waypoints from the current one: two in a row are not linked to the last one reached.
    `skipped` says that the waypoint before was not. -/
def Stuck (linked : OperationalPoint → OperationalPoint → Prop) :
    Bool → OperationalPoint → List OperationalPoint → Prop
  | _, _, [] => False
  | skipped, current, target :: path =>
      (linked current target ∧ Stuck linked false target path) ∨
        ¬ linked current target ∧ (skipped = true ∨ Stuck linked true current path)

section Advance

variable (astar : Graph.Astar) {g : Graph} {current : NewTrain.Waypoint}

/-- A waypoint that is linked to the last one reached is reached; another one is skipped, if the one before
    was not. -/
theorem advance_cons (hclosed : g.Closed) (hcurrent : g.Has current.op) (target : NewTrain.Waypoint)
    (path : List NewTrain.Waypoint) (trains : Finset Id) (skipped : Option NewTrain.Waypoint) :
    (g.Linked current.op target.op ∧ g.Has target.op ∧
      MatchingState.advance astar ⟨target :: path, g, trains, current, skipped⟩ =
        .Advanced ⟨path, g, trains ∩ (g.trainsAt current.op ∩ g.trainsAt target.op), target, none⟩) ∨
    ¬ g.Linked current.op target.op ∧
      MatchingState.advance astar ⟨target :: path, g, trains, current, skipped⟩ =
        skipped.elim (.Advanced ⟨path, g, ∅, current, some target⟩)
          (.IrremediablyBlocked current target) := by
  rcases Graph.trainsOnPath_spec astar hclosed (v := target.op) hcurrent with
    ⟨hlinked, htrains⟩ | ⟨hlinked, hnone⟩
  · have htarget : g.Has target.op := hlinked.elim (fun heq => heq ▸ hcurrent) fun hedge => hclosed _ hedge
    exact .inl ⟨hlinked, htarget, by simp [MatchingState.advance, htrains]⟩
  · refine .inr ⟨hlinked, ?_⟩
    simp only [mem_cons, not_mem_nil, or_false] at hnone
    rcases hnone with h | h | h <;> cases skipped <;> simp [MatchingState.advance, h]

/-- The exploration ends after one turn per waypoint, and is blocked iff the new train gets stuck. -/
theorem explore_spec : ∀ {fuel : ℕ} {state : MatchingState}, state.graph.Closed →
    state.graph.Has state.currentWaypoint.op → state.path.length < fuel →
    (Stuck state.graph.Linked state.skipped.isSome state.currentWaypoint.op
        (state.path.map (·.op)) ∧ explore astar fuel state = some .Blocked) ∨
      (¬ Stuck state.graph.Linked state.skipped.isSome state.currentWaypoint.op
        (state.path.map (·.op)) ∧ ∃ trains, explore astar fuel state = some (.Found trains))
  | 0, _, _, _, hfuel => by simp at hfuel
  | fuel + 1, ⟨[], g, trains, current, skipped⟩, _, _, _ => by
    exact .inr ⟨fun h => h, trains, rfl⟩
  | fuel + 1, ⟨target :: path, g, trains, current, skipped⟩, hclosed, hcurrent, hfuel => by
    have hfuel' : path.length < fuel := Nat.lt_of_succ_lt_succ hfuel
    rcases advance_cons astar hclosed hcurrent target path trains skipped with
      ⟨hlinked, htarget, hadvance⟩ | ⟨hlinked, hadvance⟩
    · rw [explore, hadvance]
      simp only [map_cons, Stuck, hlinked, true_and, not_true_eq_false, false_and, or_false]
      exact @explore_spec fuel ⟨path, g, _, target, none⟩ hclosed htarget hfuel'
    · rw [explore, hadvance]
      cases skipped with
      | none =>
        simp only [map_cons, Stuck, hlinked, false_and, not_false_eq_true, true_and, false_or,
          Option.isSome_none, Bool.false_eq_true]
        exact @explore_spec fuel ⟨path, g, ∅, current, some target⟩ hclosed hcurrent hfuel'
      | some skipped => simp [Stuck, hlinked]

/-- What an exploration finds, from candidates that are on the node of the current waypoint: those that are
    also on the nodes of the other waypoints if each is linked to the one before, none if one is skipped. -/
theorem explore_found (hclosed : g.Closed) : ∀ {fuel : ℕ} {path : List NewTrain.Waypoint}
    {trains found : Finset Id} {current : NewTrain.Waypoint} {skipped : Option NewTrain.Waypoint},
    g.Has current.op → trains ⊆ g.trainsAt current.op →
    explore astar fuel ⟨path, g, trains, current, skipped⟩ = some (.Found found) →
    ((current :: path).map (·.op)).IsChain g.Linked ∧
        (∀ id, id ∈ found ↔ id ∈ trains ∧ ∀ w ∈ path, id ∈ g.trainsAt w.op) ∨
      ¬ ((current :: path).map (·.op)).IsChain g.Linked ∧ found = ∅
  | 0, _, _, _, _, _, _, _, hfound => nomatch hfound
  | fuel + 1, [], trains, _, _, _, _, _, hfound => by
    obtain rfl : trains = _ := by simpa [explore, MatchingState.advance] using hfound
    simp
  | fuel + 1, target :: path, trains, found, current, skipped, hcurrent, hsubset, hfound => by
    rcases advance_cons astar hclosed hcurrent target path trains skipped with
      ⟨hlinked, htarget, hadvance⟩ | ⟨hlinked, hadvance⟩
    · rw [explore, hadvance] at hfound
      have hsubset' : trains ∩ (g.trainsAt current.op ∩ g.trainsAt target.op) ⊆ g.trainsAt target.op :=
        Finset.inter_subset_right.trans Finset.inter_subset_right
      have hnext := explore_found hclosed htarget hsubset' hfound
      simp only [map_cons, isChain_cons_cons, hlinked, true_and] at hnext ⊢
      refine hnext.imp_left fun ⟨hchain, hmem⟩ => ⟨hchain, fun id => ?_⟩
      rw [hmem]
      simp only [Finset.mem_inter, and_assoc]
      exact and_congr_right fun hid => by simp [hsubset hid]
    · rw [explore, hadvance] at hfound
      refine .inr ⟨by simp [hlinked], ?_⟩
      cases skipped with
      | none =>
        rcases explore_found hclosed hcurrent (Finset.empty_subset _) hfound with ⟨-, hmem⟩ | ⟨-, hempty⟩
        · exact Finset.eq_empty_of_forall_notMem fun id hid => by simpa using (hmem id).mp hid
        · exact hempty
      | some skipped => simp at hfound

end Advance

end Osrd.SimilarTrains
