import Osrd.SimilarTrains.Traffic

/-! What a query finds in the traffic after any imports.

    The indexes keep all that an id was imported with, the table only its last data. The answers of the
    indexes are exact as long as an id is not imported again with other data that they list. -/

namespace Osrd.SimilarTrains.TrainsTrafficPool

open List

variable {pool : TrainsTrafficPool} {trains : List TrainTraffic} {t t' : TrainTraffic}

/-! ### The indexes and the table -/

/-- The last train of its id. -/
def IsLatest (trains : List TrainTraffic) (t : TrainTraffic) : Prop :=
  trains.reverse.find? (·.id = t.id) = some t

/-- The indexes list all the trains, the table holds the last one of each id. -/
structure Holds (pool : TrainsTrafficPool) (trains : List TrainTraffic) : Prop where
  speedlimit : ∀ tag id, pool.trainsBySpeedlimit.Lists tag id ↔ ∃ t ∈ trains, t.speedLimitTag = tag ∧
    t.id = id
  rollingstock : ∀ rs id, pool.trainsByRollingstock.Lists rs id ↔ ∃ t ∈ trains, t.rollingStock = rs ∧
    t.id = id
  segment : ∀ key id, pool.trainsBySegment.Lists key id ↔ ∃ t ∈ trains, key ∈ t.stopWindows ∧ t.id = id
  byId : ∀ t, t ∈ pool.trainsById ↔ IsLatest trains t

theorem IsLatest.mem (h : IsLatest trains t) : t ∈ trains :=
  mem_reverse.mp (mem_of_find?_eq_some h)

theorem isLatest_append : IsLatest (trains ++ [t]) t' ↔ t' = t ∨ t'.id ≠ t.id ∧ IsLatest trains t' := by
  rw [IsLatest, reverse_append, reverse_singleton, singleton_append, find?_cons]
  by_cases hid : t.id = t'.id
  · simp [hid, eq_comm]
  · have hne : t' ≠ t := by
      rintro rfl
      exact hid rfl
    simp [hid, hne, IsLatest, Ne.symm hid]

theorem Holds.addTrainTraffic (h : Holds pool trains) (t : TrainTraffic) :
    Holds (pool.addTrainTraffic t) (trains ++ [t].filter (pool.trafficValidFrom < ·.startTime)) := by
  rw [TrainsTrafficPool.addTrainTraffic]
  split
  · next hvalid =>
    simp only [filter_singleton, hvalid, decide_true]
    constructor
    · intro tag id
      simp [InvertedIndex.lists_insert, h.speedlimit, or_and_right, exists_or, eq_comm]
    · intro rs id
      simp [InvertedIndex.lists_insert, h.rollingstock, or_and_right, exists_or, eq_comm]
    · intro key id
      simp [InvertedIndex.lists_insertAll, h.segment, or_and_right, exists_or, eq_comm]
    · intro t'
      simp [isLatest_append, ← h.byId, insertById, or_comm, and_comm]
  · next hvalid => simpa [hvalid] using h

variable (trafficValidFrom : ℤ)

/-- The pool after some imports. -/
def importAll (trains : List TrainTraffic) : TrainsTrafficPool :=
  trains.foldl addTrainTraffic (newWithDate trafficValidFrom)

/-- The trains that start late enough. -/
def imported (trains : List TrainTraffic) : List TrainTraffic :=
  trains.filter (trafficValidFrom < ·.startTime)

theorem importAll_holds (trains : List TrainTraffic) :
    (importAll trafficValidFrom trains).trafficValidFrom = trafficValidFrom ∧
      Holds (importAll trafficValidFrom trains) (imported trafficValidFrom trains) := by
  induction trains using reverseRecOn with
  | nil =>
    refine ⟨rfl, ?_⟩
    constructor <;> simp [importAll, imported, newWithDate, InvertedIndex.Lists, InvertedIndex.empty,
      IsLatest]
  | append_singleton trains t ih =>
    obtain ⟨hfrom, hholds⟩ := ih
    have hadd : importAll trafficValidFrom (trains ++ [t]) =
        (importAll trafficValidFrom trains).addTrainTraffic t := by simp [importAll]
    rw [hadd, imported, filter_append]
    refine ⟨?_, ?_⟩
    · rw [addTrainTraffic]
      split <;> exact hfrom
    · have hstep := hholds.addTrainTraffic t
      rwa [hfrom] at hstep

/-! ### Queries -/

/-- Two stops in a row of the waypoints. -/
def stopWindows (waypoints : List Graph.Waypoint) : List (Graph.Waypoint × Graph.Waypoint) :=
  (waypoints.filter (·.stop)).zip (waypoints.filter (·.stop)).tail

/-- The train has the characteristics that are asked for, and two stops in a row of the waypoints. -/
def Compatible (rollingStock : RollingStockCharacteristics) (waypoints : List Graph.Waypoint)
    (t : TrainTraffic) : Prop :=
  (∀ rs ∈ rollingStock.name, t.rollingStock = rs) ∧
    (∀ tag ∈ rollingStock.speedLimitTag, t.speedLimitTag = tag) ∧
    ∃ key ∈ stopWindows waypoints, key ∈ t.stopWindows

theorem mem_getD {K : Type} {index : InvertedIndex K Id} {k : K} {id : Id} :
    id ∈ (index k).getD ∅ ↔ index.Lists k id := by
  cases hk : index k <;> simp [InvertedIndex.Lists, hk]

theorem Holds.mem_compliantTrains (h : Holds pool trains) (rollingStock : RollingStockCharacteristics)
    {id : Id} : id ∈ pool.compliantTrains rollingStock ↔
      (∀ rs ∈ rollingStock.name, ∃ t ∈ trains, t.rollingStock = rs ∧ t.id = id) ∧
        ∀ tag ∈ rollingStock.speedLimitTag, ∃ t ∈ trains, t.speedLimitTag = tag ∧ t.id = id := by
  obtain ⟨_ | rs, _ | tag, hgiven⟩ := rollingStock
  · simp at hgiven
  · simp [compliantTrains, mem_getD, h.speedlimit]
  · simp [compliantTrains, mem_getD, h.rollingstock]
  · simp [compliantTrains, mem_getD, h.speedlimit, h.rollingstock]

theorem mem_foldl_union {α : Type} {f : α → Finset Id} {id : Id} : ∀ {keys : List α} {ids : Finset Id},
    id ∈ keys.foldl (fun ids key => ids ∪ f key) ids ↔ id ∈ ids ∨ ∃ key ∈ keys, id ∈ f key
  | [], _ => by simp
  | key :: keys, ids => by simp [mem_foldl_union, or_assoc]

theorem mem_validTrains {rollingStock : RollingStockCharacteristics} {waypoints : List Graph.Waypoint}
    {id : Id} : id ∈ pool.validTrains rollingStock waypoints ↔ id ∈ pool.compliantTrains rollingStock ∧
      ∃ key ∈ stopWindows waypoints, pool.trainsBySegment.Lists key id := by
  simp only [validTrains, mem_foldl_union, Finset.mem_inter, mem_getD, stopWindows]
  constructor
  · rintro (hnone | ⟨key, hkey, hlists, hid⟩)
    · simp at hnone
    · exact ⟨hid, key, hkey, hlists⟩
  · rintro ⟨hid, key, hkey, hlists⟩
    exact .inr ⟨key, hkey, hlists, hid⟩

theorem Holds.mem_findCompatibleTrains (h : Holds pool trains) (rollingStock : RollingStockCharacteristics)
    (waypoints : List Graph.Waypoint) : t ∈ pool.findCompatibleTrains rollingStock waypoints ↔
      IsLatest trains t ∧ (∀ rs ∈ rollingStock.name, ∃ t' ∈ trains, t'.rollingStock = rs ∧ t'.id = t.id) ∧
        (∀ tag ∈ rollingStock.speedLimitTag, ∃ t' ∈ trains, t'.speedLimitTag = tag ∧ t'.id = t.id) ∧
        ∃ key ∈ stopWindows waypoints, ∃ t' ∈ trains, key ∈ t'.stopWindows ∧ t'.id = t.id := by
  rw [findCompatibleTrains, mem_filter, decide_eq_true_iff, h.byId, mem_validTrains,
    h.mem_compliantTrains, and_assoc]
  simp only [h.segment]

theorem stopWindows_pair {key : Graph.Waypoint × Graph.Waypoint} (h : key ∈ t.stopWindows) :
    stopWindows [key.1, key.2] = [key] := by
  obtain ⟨hfrom, hto⟩ := of_mem_zip h
  have hfrom := (mem_filter.mp hfrom).2
  have hto := (mem_filter.mp (mem_of_mem_tail hto)).2
  simp [stopWindows, hfrom, hto]

/-- Queries give the last data of the ids whose last data are compatible iff no id that has two stops in a
    row is imported again with another rolling stock or tag, or without two stops in a row that it had. -/
theorem findCompatibleTrains_exact_iff (trains : List TrainTraffic) : (∀ rollingStock waypoints t,
        t ∈ (importAll trafficValidFrom trains).findCompatibleTrains rollingStock waypoints ↔
          IsLatest (imported trafficValidFrom trains) t ∧ Compatible rollingStock waypoints t) ↔
      ∀ t, IsLatest (imported trafficValidFrom trains) t →
        ∀ old ∈ imported trafficValidFrom trains, old.id = t.id →
        ∀ before ∈ imported trafficValidFrom trains, before.id = t.id → ∀ key ∈ before.stopWindows,
          old.rollingStock = t.rollingStock ∧ old.speedLimitTag = t.speedLimitTag ∧ key ∈ t.stopWindows := by
  have hholds := (importAll_holds trafficValidFrom trains).2
  simp only [hholds.mem_findCompatibleTrains]
  constructor
  · intro hexact t ht old hold hid before hbefore hid' key hkey
    -- asked for either characteristic of the old data and the two stops
    have hfound : ∀ rollingStock : RollingStockCharacteristics,
        (∀ rs ∈ rollingStock.name, old.rollingStock = rs) →
        (∀ tag ∈ rollingStock.speedLimitTag, old.speedLimitTag = tag) →
        Compatible rollingStock [key.1, key.2] t := by
      intro rollingStock hrs htag
      refine ((hexact rollingStock [key.1, key.2] t).mp ⟨ht, fun rs hmem => ?_, fun tag hmem => ?_, ?_⟩).2
      · exact ⟨old, hold, hrs rs hmem, hid⟩
      · exact ⟨old, hold, htag tag hmem, hid⟩
      · exact ⟨key, by simp [stopWindows_pair hkey], before, hbefore, hkey, hid'⟩
    obtain ⟨hrs, -, hstops⟩ := hfound ⟨some old.rollingStock, none, by simp⟩ (by simp) (by simp)
    obtain ⟨-, htag, -⟩ := hfound ⟨none, some old.speedLimitTag, by simp⟩ (by simp) (by simp)
    rw [stopWindows_pair hkey] at hstops
    exact ⟨(hrs _ rfl).symm, (htag _ rfl).symm, by simpa using hstops⟩
  · intro hsame rollingStock waypoints t
    refine and_congr_right fun ht => ?_
    constructor
    · rintro ⟨hrs, htag, key, hkey, before, hbefore, hmem, hid⟩
      refine ⟨fun rs hmem' => ?_, fun tag hmem' => ?_, key, hkey, ?_⟩
      · obtain ⟨old, hold, rfl, hid'⟩ := hrs rs hmem'
        exact (hsame t ht old hold hid' before hbefore hid key hmem).1.symm
      · obtain ⟨old, hold, rfl, hid'⟩ := htag tag hmem'
        exact (hsame t ht old hold hid' before hbefore hid key hmem).2.1.symm
      · exact (hsame t ht before hbefore hid before hbefore hid key hmem).2.2
    · rintro ⟨hrs, htag, key, hkey, hmem⟩
      exact ⟨fun rs hmem' => ⟨t, ht.mem, hrs rs hmem', rfl⟩,
        fun tag hmem' => ⟨t, ht.mem, htag tag hmem', rfl⟩,
        key, hkey, t, ht.mem, hmem, rfl⟩

/-- Train 1 is imported again with another rolling stock, and found for the first one. -/
theorem findCompatibleTrains_stale :
    let trains : List TrainTraffic := [⟨"T", 1, "old", "tag", ⟨1, [⟨"A", true⟩, ⟨"B", true⟩]⟩⟩,
      ⟨"T", 1, "new", "tag", ⟨1, [⟨"A", true⟩, ⟨"B", true⟩]⟩⟩]
    ((importAll 0 trains).findCompatibleTrains ⟨some "old", none, by simp⟩ [⟨"A", true⟩, ⟨"B", true⟩]).map
      (·.rollingStock) = ["new"] := by
  decide

end Osrd.SimilarTrains.TrainsTrafficPool
