import Osrd.SimilarTrains.Matching

/-! What skipping a waypoint does to the candidates of a segment.

    The candidates are narrowed to those on each node that is reached. The branches that skip a waypoint
    narrow them to the empty set, so no train is left at the end. -/

namespace Osrd.SimilarTrains

namespace Graph

/-- The graph of past trains, given by their ids and the part of their path that is used. -/
def pushAll (trains : List (Id × List Waypoint)) : Graph :=
  trains.foldl (fun g train => g.push train.1 train.2) .default

theorem closed_pushAll (trains : List (Id × List Waypoint)) : (pushAll trains).Closed := by
  induction trains using List.reverseRecOn with
  | nil => simp [pushAll, Closed, default]
  | append_singleton trains train ih =>
    have hpush : pushAll (trains ++ [train]) = (pushAll trains).push train.1 train.2 := by simp [pushAll]
    obtain ⟨hnodes, hedges⟩ := (pushAll trains).push_spec train.1 train.2
    intro e he
    rw [hpush] at he ⊢
    rw [hnodes]
    rcases (hedges e).mp he with he | he
    · exact .inl (ih e he)
    · exact .inr ⟨e, he, .inr rfl⟩

instance (g : Graph) (u v : OperationalPoint) : Decidable (g.Linked u v) :=
  inferInstanceAs (Decidable (_ ∨ _))

/-- The nodes that are reached from the current one; there is none between two of them. -/
def matched (g : Graph) : OperationalPoint → List OperationalPoint → List OperationalPoint
  | current, [] => [current]
  | current, target :: path =>
      if g.Linked current target then current :: g.matched target path else g.matched current path

theorem matched_of_isChain {g : Graph} : ∀ {path : List OperationalPoint} {current : OperationalPoint},
    (current :: path).IsChain g.Linked → g.matched current path = current :: path
  | [], _, _ => rfl
  | target :: path, current, h => by
    obtain ⟨hlinked, hpath⟩ := List.isChain_cons_cons.mp h
    rw [matched, if_pos hlinked, matched_of_isChain hpath]

end Graph

/-- The nodes that a segment is matched on. -/
def Segment.matched (segment : Segment) (g : Graph) : List OperationalPoint :=
  g.matched segment.beginAt.op ((segment.passingBy ++ [segment.endAt]).map (·.op))

/-- The trains that are found are those on all the nodes reached, unless a waypoint is skipped and there is
    such a train. -/
theorem explore_found_iff (astar : Graph.Astar) (segment : Segment)
    (pastTrains : List (Id × List Graph.Waypoint)) {state : MatchingState}
    (hnew : MatchingState.tryNew segment (.pushAll pastTrains) = some state) {fuel : ℕ} {found : Finset Id}
    (hfound : explore astar fuel state = some (.Found found)) :
    (∀ id, id ∈ found ↔
        ∀ op ∈ segment.matched (.pushAll pastTrains), id ∈ (Graph.pushAll pastTrains).trainsAt op) ↔
      (segment.intoPath.map (·.op)).IsChain (Graph.pushAll pastTrains).Linked ∨
        ∀ id, ∃ op ∈ segment.matched (.pushAll pastTrains), id ∉ (Graph.pushAll pastTrains).trainsAt op := by
  obtain ⟨node, hnode, rfl⟩ := Option.map_eq_some_iff.mp hnew
  have htrains : node.trains = (Graph.pushAll pastTrains).trainsAt segment.beginAt.op := by
    simp [Graph.trainsAt, hnode]
  rcases explore_found astar (Graph.closed_pushAll pastTrains)
    (Graph.getNode_isSome.mp (by rw [hnode]; rfl)) htrains.subset hfound with ⟨hchain, hmem⟩ | ⟨hskip, rfl⟩
  · refine iff_of_true (fun id => ?_) (.inl hchain)
    rw [hmem, htrains, Segment.matched, Graph.matched_of_isChain hchain, List.forall_mem_cons,
      List.forall_mem_map]
  · have hskip : ¬ (segment.intoPath.map (·.op)).IsChain (Graph.pushAll pastTrains).Linked := hskip
    simp [hskip]

/-- From `A` through `B` to `C`. -/
def throughB : Segment := ⟨⟨"A", .Stop⟩, [⟨"B", .PassingBy⟩], ⟨"C", .Stop⟩⟩

/-- A past train on the segment, and one from `A` to `C`. -/
def onSegment : List (Id × List Graph.Waypoint) := [(1, [⟨"A", true⟩, ⟨"B", false⟩, ⟨"C", true⟩])]

def direct : List (Id × List Graph.Waypoint) := [(1, [⟨"A", true⟩, ⟨"C", true⟩])]

/-- No waypoint is skipped, and the train on all the nodes is found. -/
theorem explore_found_iff_onSegment : ∃ state, MatchingState.tryNew throughB (.pushAll onSegment) =
    some state ∧ explore .byLength 3 state = some (.Found {1}) ∧ ∀ id, id ∈ ({1} : Finset Id) ↔
      ∀ op ∈ throughB.matched (.pushAll onSegment), id ∈ (Graph.pushAll onSegment).trainsAt op :=
  ⟨_, rfl, rfl, (@explore_found_iff .byLength throughB onSegment _ rfl 3 _ rfl).mpr (.inl (by decide))⟩

/-- The train is on `A` and `C`, the nodes that are reached, and is not found. -/
theorem explore_direct : ∃ state, MatchingState.tryNew throughB (.pushAll direct) = some state ∧
    explore .byLength 3 state = some (.Found ∅) ∧
    ∀ op ∈ throughB.matched (.pushAll direct), 1 ∈ (Graph.pushAll direct).trainsAt op :=
  ⟨_, rfl, rfl, by decide⟩

end Osrd.SimilarTrains
