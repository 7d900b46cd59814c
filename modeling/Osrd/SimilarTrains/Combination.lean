import Mathlib.Data.Finset.Max
import Mathlib.Data.Prod.Lex
import Osrd.Lib.HittingSet
import Osrd.SimilarTrains.Trains

/-! Model of `decide_best_train_combination` (`editoast/.../timetable/similar_trains.rs`): which past trains
    to keep, so that each segment has one of its own.

    The train of the most segments is taken (the greatest id on a tie), its segments are left out, and so
    on. The trains taken always cover the segments. They are the fewest only under a condition: trains that
    overlap can make the greedy choice a bad one. -/

namespace Osrd.SimilarTrains

open HittingSet Finset

variable (segmentsTrains : List (Finset Id))

/-- The entries `(count, train)` of the heap. -/
def histo : Finset (ℕ ×ₗ Id) :=
  (segmentsTrains.foldr (· ∪ ·) ∅).image fun train => toLex (degree segmentsTrains train, train)

/-- The greatest entry; `none` is the failed `expect` on an empty heap. -/
def longestTrain : Option Id :=
  match (histo segmentsTrains).max with
  | ⊥ => none
  | (entry : ℕ ×ₗ Id) => some (ofLex entry).2

/-- The loop, for at most the given number of turns. -/
def combinationLoop : ℕ → List (Finset Id) → Finset Id → Option (Finset Id)
  | _, [], trains => some trains
  | 0, _ :: _, _ => none
  | fuel + 1, segment :: segments, trains =>
      (longestTrain (segment :: segments)).bind fun longest =>
        combinationLoop fuel (without longest (segment :: segments)) (insert longest trains)

/-- `none` is a panic; each turn leaves out a segment at least. -/
def decideBestTrainCombination : Option (Finset Id) :=
  combinationLoop segmentsTrains.length segmentsTrains ∅

variable {sets : List (Finset Id)}

theorem mem_foldr_union {train : Id} : train ∈ sets.foldr (· ∪ ·) ∅ ↔ ∃ s ∈ sets, train ∈ s := by
  induction sets with
  | nil => simp
  | cons s sets ih => simp [ih]

/-- What is popped is a train of the most segments. -/
theorem longestTrain_spec {s : Finset Id} (hs : s ∈ sets) (hne : s.Nonempty) :
    ∃ longest, longestTrain sets = some longest ∧ 0 < degree sets longest ∧
      ∀ v, degree sets v ≤ degree sets longest := by
  obtain ⟨t, ht⟩ := hne
  have hentry : toLex (degree sets t, t) ∈ histo sets := mem_image_of_mem _ (mem_foldr_union.mpr ⟨s, hs, ht⟩)
  obtain ⟨entry, hmax⟩ := max_of_mem hentry
  obtain ⟨longest, hlongest, rfl⟩ := mem_image.mp (mem_of_max hmax)
  obtain ⟨s', hs', hmem⟩ := mem_foldr_union.mp hlongest
  refine ⟨longest, by rw [longestTrain, hmax]; rfl, degree_pos hs' hmem, ?_⟩
  intro v
  by_cases hv : ∃ s ∈ sets, v ∈ s
  · have hle := le_max_of_eq (mem_image_of_mem
      (fun train => toLex (degree sets train, train)) (mem_foldr_union.mpr hv)) hmax
    rcases Prod.Lex.toLex_le_toLex.mp hle with hlt | ⟨heq, -⟩
    · exact hlt.le
    · exact heq.le
  · have hzero : degree sets v = 0 :=
      List.countP_eq_zero.mpr fun s hs => by simpa using fun hmem => hv ⟨s, hs, hmem⟩
    omega

theorem length_without_lt {train : Id} (h : 0 < degree sets train) :
    (without train sets).length < sets.length := by
  obtain ⟨s, hs, hmem⟩ := List.countP_pos_iff.mp h
  refine List.length_filter_lt_length_iff_exists.mpr ⟨s, hs, ?_⟩
  simpa using hmem

/-- Each turn adds a train; with enough turns all the segments are covered. -/
theorem combinationLoop_spec : ∀ (fuel : ℕ) {sets : List (Finset Id)} (trains : Finset Id),
    sets.length ≤ fuel → (∀ s ∈ sets, s.Nonempty) →
    ∃ chosen, combinationLoop fuel sets trains = some (trains ∪ chosen) ∧
      Hits chosen sets ∧ (Merged sets → Minimum chosen sets)
  | fuel, [], trains, _, _ =>
    ⟨∅, by cases fuel <;> simp [combinationLoop], by simp [Hits], fun _ _ _ => by simp⟩
  | 0, _ :: _, _, hfuel, _ => by simp at hfuel
  | fuel + 1, s :: sets, trains, hfuel, hne => by
    obtain ⟨longest, hlongest, hpos, hmax⟩ :=
      @longestTrain_spec (s :: sets) s List.mem_cons_self (hne s List.mem_cons_self)
    have hlt : (without longest (s :: sets)).length ≤ fuel :=
      Nat.le_of_lt_succ ((length_without_lt hpos).trans_le hfuel)
    obtain ⟨chosen, hloop, hhits, hmin⟩ := combinationLoop_spec fuel (insert longest trains) hlt
      fun s' hs' => hne s' (mem_without.mp hs').1
    refine ⟨insert longest chosen, ?_, hhits.insert, ?_⟩
    · rw [combinationLoop, hlongest, Option.bind_some, hloop, insert_union, union_insert]
    · intro hmerged
      exact (hmin (hmerged.without longest)).insert hmerged hmax hpos

/-- A covering choice of trains is always returned. It is a smallest one when any two trains of one segment
    can be replaced by a single train in all their segments. -/
theorem decideBestTrainCombination_spec (sets : List (Finset Id)) (hne : ∀ s ∈ sets, s.Nonempty) :
    ∃ trains, decideBestTrainCombination sets = some trains ∧ Hits trains sets ∧
      (Merged sets → Minimum trains sets) := by
  obtain ⟨chosen, hloop, hhits, hmin⟩ := combinationLoop_spec sets.length ∅ le_rfl hne
  rw [empty_union] at hloop
  exact ⟨chosen, hloop, hhits, hmin⟩

theorem decideBestTrainCombination_spec_nested :
    ∃ trains, decideBestTrainCombination [{1}, {1, 2}] = some trains ∧ Hits trains [{1}, {1, 2}] ∧
      Minimum trains [{1}, {1, 2}] := by
  obtain ⟨trains, hsome, hhits, hmin⟩ := decideBestTrainCombination_spec [{1}, {1, 2}] (by decide)
  refine ⟨trains, hsome, hhits, hmin ?_⟩
  -- train 1 is in both segments
  intro s hs t ht u hu
  exact ⟨1, by simp [Dominates], by simp [Dominates]⟩

/-- Trains 1 and 2 are enough, but train 3 is taken first: it is in as many segments as each of them. -/
theorem decideBestTrainCombination_overlap :
    decideBestTrainCombination [{1}, {1, 3}, {2, 3}, {2}] = some {1, 2, 3} ∧
      Hits ({1, 2} : Finset Id) [{1}, {1, 3}, {2, 3}, {2}] ∧
      ({1, 2} : Finset Id).card < ({1, 2, 3} : Finset Id).card := by
  unfold Hits
  decide

end Osrd.SimilarTrains
