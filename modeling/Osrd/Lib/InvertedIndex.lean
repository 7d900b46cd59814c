import Mathlib.Data.Finset.Insert
import Mathlib.Data.Finset.Erase

/-! An inverted index: a table from keys to the set of entries that mention them. A key stays in the table
    when its last entry is taken out. -/

abbrev InvertedIndex (K R : Type) := K → Option (Finset R)

namespace InvertedIndex

open Function

variable {K R : Type} [DecidableEq K] [DecidableEq R]

def empty : InvertedIndex K R := fun _ => none

/-- The entry `r` is listed under the key `k`. -/
def Lists (index : InvertedIndex K R) (k : K) (r : R) : Prop := ∃ refs, index k = some refs ∧ r ∈ refs

def insert (r : R) (index : InvertedIndex K R) (k : K) : InvertedIndex K R :=
  update index k (some (Insert.insert r ((index k).getD ∅)))

def insertAll (index : InvertedIndex K R) (r : R) (keys : List K) : InvertedIndex K R :=
  keys.foldl (insert r) index

/-- Takes the entry out under each key in turn; stops at a key that is not in the table. -/
def eraseAll (r : R) : InvertedIndex K R → List K → InvertedIndex K R × Bool
  | index, [] => (index, true)
  | index, k :: keys =>
      match index k with
      | none => (index, false)
      | some refs => eraseAll r (update index k (some (refs.erase r))) keys

variable {index : InvertedIndex K R}

theorem lists_insert {k k' : K} {r r' : R} :
    Lists (insert r index k) k' r' ↔ Lists index k' r' ∨ (k' = k ∧ r' = r) := by
  rcases eq_or_ne k' k with rfl | hk
  · simp only [Lists, insert, update_self, Option.some.injEq, exists_eq_left', Finset.mem_insert, true_and]
    cases index k' with
    | none => simp
    | some refs => simp [or_comm]
  · simp only [Lists, insert, update_of_ne hk, hk, false_and, or_false]

theorem lists_insertAll {keys : List K} {k : K} {r r' : R} :
    Lists (insertAll index r keys) k r' ↔ Lists index k r' ∨ (k ∈ keys ∧ r' = r) := by
  induction keys generalizing index with
  | nil => simp [insertAll]
  | cons k' keys ih =>
    have hcons : insertAll index r (k' :: keys) = insertAll (insert r index k') r keys := rfl
    rw [hcons, ih, lists_insert, List.mem_cons, or_assoc, or_and_right]

/-- When every key is in the table the entry is taken out under all of them. -/
theorem eraseAll_spec {r : R} : ∀ {keys : List K} {index : InvertedIndex K R},
    (∀ k ∈ keys, index k ≠ none) → (eraseAll r index keys).2 = true ∧
      ∀ k r', Lists (eraseAll r index keys).1 k r' ↔ Lists index k r' ∧ ¬ (k ∈ keys ∧ r' = r)
  | [], index, _ => by simp [eraseAll]
  | k₀ :: keys, index, hkeys => by
    obtain ⟨refs, hrefs⟩ := Option.ne_none_iff_exists'.mp (hkeys k₀ List.mem_cons_self)
    have hkeep : ∀ k ∈ keys, update index k₀ (some (refs.erase r)) k ≠ none := by
      intro k hk
      rcases eq_or_ne k k₀ with rfl | hne
      · simp
      · rw [update_of_ne hne]
        exact hkeys k (List.mem_cons_of_mem k₀ hk)
    obtain ⟨hdone, hlists⟩ := eraseAll_spec (r := r) hkeep
    have hstep : eraseAll r index (k₀ :: keys) =
        eraseAll r (update index k₀ (some (refs.erase r))) keys := by
      rw [eraseAll, hrefs]
    rw [hstep]
    refine ⟨hdone, fun k r' => ?_⟩
    rw [hlists, List.mem_cons]
    rcases eq_or_ne k k₀ with rfl | hne
    · have herase : Lists (update index k (some (refs.erase r))) k r' ↔
          Lists index k r' ∧ r' ≠ r := by
        simp [Lists, hrefs, and_comm]
      rw [herase]
      tauto
    · have hsame : Lists (update index k₀ (some (refs.erase r))) k r' ↔
          Lists index k r' := by
        simp [Lists, update_of_ne hne]
      rw [hsame]
      simp [hne]

end InvertedIndex
