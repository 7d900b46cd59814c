import Mathlib.Data.Finset.Lattice.Basic
import Osrd.SimilarTrains.Trains

/-! Model of the traffic the past trains come from (`editoast/.../similar_trains/trains_traffic.rs`): trains
    by id, and indexes from their characteristics and their pairs of stops to those ids. -/

namespace Osrd.SimilarTrains

open List

structure TrainTraffic where
  name : String
  /-- In milliseconds since the epoch. -/
  startTime : ℤ
  rollingStock : String
  speedLimitTag : String
  train : PastTrain

variable {trains : List TrainTraffic}

namespace TrainTraffic

def id (t : TrainTraffic) : Id := t.train.id

/-- The pairs of stops in a row, as waypoints. -/
def stopWindows (t : TrainTraffic) : List (Graph.Waypoint × Graph.Waypoint) :=
  t.train.iterStops.zip t.train.iterStops.tail

end TrainTraffic

/-- What the request says of the train; one of the two is given, or it is not deserialized. -/
structure RollingStockCharacteristics where
  name : Option String
  speedLimitTag : Option String
  given : name.isSome ∨ speedLimitTag.isSome

/-- The trains by id, and the indexes to their ids; an id of the segment index has its train. -/
structure TrainsTrafficPool where
  trafficValidFrom : ℤ
  trainsBySpeedlimit : InvertedIndex String Id
  trainsByRollingstock : InvertedIndex String Id
  trainsBySegment : InvertedIndex (Graph.Waypoint × Graph.Waypoint) Id
  trainsById : List TrainTraffic
  nodup : (trainsById.map (·.id)).Nodup
  known : ∀ key id, trainsBySegment.Lists key id → id ∈ trainsById.map (·.id)

namespace TrainsTrafficPool

def newWithDate (trafficValidFrom : ℤ) : TrainsTrafficPool :=
  ⟨trafficValidFrom, .empty, .empty, .empty, [], by simp, by simp [InvertedIndex.Lists, InvertedIndex.empty]⟩

variable (pool : TrainsTrafficPool)

def len : ℕ := pool.trainsById.length

def getById (id : Id) : Option TrainTraffic :=
  pool.trainsById.find? (·.id = id)

/-- `HashMap::insert`: the train replaces one of the same id. -/
def insertById (trains : List TrainTraffic) (t : TrainTraffic) : List TrainTraffic :=
  trains.filter (·.id ≠ t.id) ++ [t]

theorem mem_insertById_ids {t : TrainTraffic} {id : Id} :
    id ∈ (insertById trains t).map (·.id) ↔ id ∈ trains.map (·.id) ∨ id = t.id := by
  by_cases h : id = t.id
  · simp [insertById, h]
  · simp only [insertById, map_append, mem_append, mem_map, mem_filter, h,
      map_singleton, mem_singleton, or_false, decide_eq_true_eq]
    constructor
    · rintro ⟨t', ⟨ht', -⟩, rfl⟩
      exact ⟨t', ht', rfl⟩
    · rintro ⟨t', ht', rfl⟩
      exact ⟨t', ⟨ht', h⟩, rfl⟩

theorem nodup_insertById (h : (trains.map (·.id)).Nodup)
    (t : TrainTraffic) : ((insertById trains t).map (·.id)).Nodup := by
  rw [insertById, map_append, nodup_append]
  refine ⟨h.sublist (filter_sublist.map _), by simp, ?_⟩
  simp only [mem_map, mem_filter, mem_singleton, decide_eq_true_eq]
  rintro _ ⟨t', ⟨-, hne⟩, rfl⟩ _ ⟨_, rfl, rfl⟩
  exact hne

/-- Trains that start too early are not imported. -/
def addTrainTraffic (t : TrainTraffic) : TrainsTrafficPool :=
  if pool.trafficValidFrom < t.startTime then
    { pool with
      trainsBySpeedlimit := pool.trainsBySpeedlimit.insert t.id t.speedLimitTag
      trainsByRollingstock := pool.trainsByRollingstock.insert t.id t.rollingStock
      trainsBySegment := pool.trainsBySegment.insertAll t.id t.stopWindows
      trainsById := insertById pool.trainsById t
      nodup := nodup_insertById pool.nodup t
      known := by
        intro key id hid
        rw [InvertedIndex.lists_insertAll] at hid
        exact mem_insertById_ids.mpr (hid.imp (pool.known key id) And.right) }
  else pool

/-- The trains with the characteristics that are asked for. -/
def compliantTrains (rollingStock : RollingStockCharacteristics) : Finset Id :=
  match rollingStock with
  | ⟨some rs, none, _⟩ => (pool.trainsByRollingstock rs).getD ∅
  | ⟨none, some speed, _⟩ => (pool.trainsBySpeedlimit speed).getD ∅
  | ⟨some rs, some speed, _⟩ =>
      (pool.trainsByRollingstock rs).getD ∅ ∩ (pool.trainsBySpeedlimit speed).getD ∅
  | ⟨none, none, h⟩ => absurd h (by simp)

/-- The compliant trains that have two stops in a row in common with the waypoints. -/
def validTrains (pool : TrainsTrafficPool) (rollingStock : RollingStockCharacteristics)
    (waypoints : List Graph.Waypoint) : Finset Id :=
  let compliantTrains := pool.compliantTrains rollingStock
  let stops := waypoints.filter (·.stop)
  (stops.zip stops.tail).foldl (fun validTrains segment =>
    validTrains ∪ ((pool.trainsBySegment segment).getD ∅ ∩ compliantTrains)) ∅

/-- The trains with these ids; by `known` and `nodup`, each id has its train and only one. -/
def findCompatibleTrains (rollingStock : RollingStockCharacteristics)
    (waypoints : List Graph.Waypoint) : List TrainTraffic :=
  pool.trainsById.filter (·.id ∈ pool.validTrains rollingStock waypoints)

end TrainsTrafficPool

end Osrd.SimilarTrains
