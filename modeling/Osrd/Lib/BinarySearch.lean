import Mathlib.Data.List.Basic
import Mathlib.Order.Lattice

/-! Binary search in a list by a three-way comparison, returning the index of a match or
    `-(insertion point) - 1`.

    The list is read through `comparison`: elements before the sought position compare `.lt`, a match
    compares `.eq`, elements after it compare `.gt`. The loop keeps the half-open window `[low, top)`
    in which the position lies (`top` is the inclusive upper index plus one). -/

namespace BinarySearch

open List

variable {α : Type}

/-- The search loop on the window `[low, top)`; each round shortens the window, so `top - low` rounds
    are enough. -/
def loop (xs : List α) (cmp : α → Ordering) : ℕ → ℕ → ℕ → ℤ
  | 0, low, _ => -((low : ℤ) + 1)
  | fuel + 1, low, top =>
    if low < top then
      let mid := (low + (top - 1)) / 2
      match xs[mid]?.map cmp with
      | some .lt => loop xs cmp fuel (mid + 1) top
      | some .gt => loop xs cmp fuel low mid
      | some .eq => mid
      | none => -((low : ℤ) + 1)
    else -((low : ℤ) + 1)

/-- Index of an element that compares `.eq`, or `-(insertion point) - 1` when there is none. -/
def binarySearch (xs : List α) (cmp : α → Ordering) : ℤ :=
  loop xs cmp xs.length 0 xs.length

variable {xs ls rs : List α} {cmp : α → Ordering} {m : α}

/-- Index `k` is where the comparison stops being `.lt`; what it is there decides between the two results. -/
theorem loop_eq {k : ℕ} (hl : ∀ i < k, xs[i]?.map cmp = some .lt)
    (hr : ∀ i, k < i → i < xs.length → xs[i]?.map cmp = some .gt)
    (hk : k < xs.length → xs[k]?.map cmp = some .eq ∨ xs[k]?.map cmp = some .gt) :
    ∀ (fuel low top : ℕ), low ≤ k → k ≤ top → top ≤ xs.length →
      (xs[k]?.map cmp = some .eq → k < top) → top - low ≤ fuel →
        loop xs cmp fuel low top = if xs[k]?.map cmp = some .eq then (k : ℤ) else -((k : ℤ) + 1)
  | 0, low, top, hlow, htop, _, heq, hf => by
    obtain rfl : low = k := by omega
    rw [loop, if_neg fun h => absurd (heq h) (by omega)]
  | fuel + 1, low, top, hlow, htop, hlen, heq, hf => by
    rw [loop]
    split
    · rcases lt_trichotomy ((low + (top - 1)) / 2) k with hside | rfl | hside
      · simp only [hl _ hside]
        exact loop_eq hl hr hk fuel _ _ hside htop hlen heq (by omega)
      · rcases hk (by omega) with hmid | hmid
        · simp only [hmid, if_true]
        · simp only [hmid]
          rw [loop_eq hl hr hk fuel _ _ hlow le_rfl (by omega) (by simp [hmid]) (by omega), hmid]
      · simp only [hr _ hside (by omega)]
        exact loop_eq hl hr hk fuel _ _ hlow (by omega) (by omega) (fun _ => hside) (by omega)
    · obtain rfl : low = k := by omega
      rw [if_neg fun h => absurd (heq h) (by omega)]

theorem map_left (hl : ∀ x ∈ ls, cmp x = .lt) (i : ℕ) (hi : i < ls.length) :
    (ls ++ rs)[i]?.map cmp = some .lt := by
  rw [getElem?_append_left hi, getElem?_eq_getElem hi, Option.map_some, hl _ (getElem_mem hi)]

theorem map_right (hr : ∀ x ∈ rs, cmp x = .gt) (i : ℕ) (hi : ls.length ≤ i) (hlt : i < (ls ++ rs).length) :
    (ls ++ rs)[i]?.map cmp = some .gt := by
  rw [getElem?_eq_getElem hlt, Option.map_some, getElem_append_right hi, hr _ (getElem_mem _)]

/-- No match: the search returns the insertion point. -/
theorem binarySearch_missing (hl : ∀ x ∈ ls, cmp x = .lt) (hr : ∀ x ∈ rs, cmp x = .gt) :
    binarySearch (ls ++ rs) cmp = -((ls.length : ℤ) + 1) := by
  have hne : (ls ++ rs)[ls.length]?.map cmp ≠ some .eq := by
    cases rs with
    | nil => simp
    | cons m rs => simp [hr m mem_cons_self]
  rw [binarySearch, loop_eq (map_left hl) (fun i hi => map_right hr i hi.le)
    (fun hlt => .inr (map_right hr _ le_rfl hlt)) _ _ _ (Nat.zero_le _) (by simp) le_rfl
    (fun h => absurd h hne) (Nat.sub_le _ _), if_neg hne]

/-- One match: the search returns its index. -/
theorem binarySearch_found (hl : ∀ x ∈ ls, cmp x = .lt) (hm : cmp m = .eq)
    (hr : ∀ x ∈ rs, cmp x = .gt) : binarySearch (ls ++ m :: rs) cmp = ls.length := by
  have heq : (ls ++ m :: rs)[ls.length]?.map cmp = some .eq := by simp [hm]
  have hright : ∀ i, ls.length < i → i < (ls ++ m :: rs).length → (ls ++ m :: rs)[i]?.map cmp =
      some .gt := by
    rw [append_cons]
    exact fun i hi => map_right hr i (by rwa [length_append])
  rw [binarySearch, loop_eq (map_left hl) hright (fun _ => .inl heq) _ _ _ (Nat.zero_le _) (by simp)
    le_rfl (by simp) (Nat.sub_le _ _), if_pos heq]

/-! ### Sorted lists -/

/-- A list that is strictly sorted by a key, around a value that is a key of it or not. -/
theorem exists_cut {β : Type} [LinearOrder β] (key : α → β) (x : β) :
    ∀ {xs : List α}, xs.Pairwise (key · < key ·) → ∃ ls rs, (∀ a ∈ ls, key a < x) ∧ (∀ a ∈ rs, x < key a) ∧
      (xs = ls ++ rs ∨ ∃ a, key a = x ∧ xs = ls ++ a :: rs)
  | [], _ => ⟨[], [], by simp, by simp, .inl rfl⟩
  | a :: xs, hs => by
    obtain ⟨hhead, htail⟩ := pairwise_cons.mp hs
    rcases lt_trichotomy (key a) x with hlt | heq | hgt
    · obtain ⟨ls, rs, hls, hrs, hxs⟩ := exists_cut key x htail
      refine ⟨a :: ls, rs, forall_mem_cons.mpr ⟨hlt, hls⟩, hrs, ?_⟩
      exact hxs.imp (congrArg _) (Exists.imp fun _ => And.imp_right (congrArg _))
    · exact ⟨[], xs, by simp, heq ▸ hhead, .inr ⟨a, heq, rfl⟩⟩
    · refine ⟨[], a :: xs, by simp, forall_mem_cons.mpr ⟨hgt, fun b hb => ?_⟩, .inl rfl⟩
      exact hgt.trans (hhead b hb)

/-- The index of the value, or of the first element above it. -/
theorem binarySearch_compare {β : Type} [LinearOrder β] {xs : List β} (hs : xs.Pairwise (· < ·)) (x : β) :
    (∃ k : ℕ, binarySearch xs (compare · x) = k ∧ xs[k]? = some x) ∨
      ∃ k : ℕ, binarySearch xs (compare · x) = -((k : ℤ) + 1) ∧
        ∀ i b, xs[i]? = some b → (i < k → b < x) ∧ (k ≤ i → x < b) := by
  obtain ⟨ls, rs, hls, hrs, hxs⟩ := exists_cut id x hs
  have hlt : ∀ b ∈ ls, compare b x = .lt := fun b hb => compare_lt_iff_lt.mpr (hls b hb)
  have hgt : ∀ b ∈ rs, compare b x = .gt := fun b hb => compare_gt_iff_gt.mpr (hrs b hb)
  rcases hxs with rfl | ⟨_, rfl, rfl⟩
  · refine .inr ⟨ls.length, binarySearch_missing hlt hgt, fun i b hi => ⟨fun hik => ?_, fun hki => ?_⟩⟩
    · rw [getElem?_append_left hik] at hi
      exact hls b (mem_of_getElem? hi)
    · rw [getElem?_append_right hki] at hi
      exact hrs b (mem_of_getElem? hi)
  · exact .inl ⟨ls.length, binarySearch_found hlt (compare_eq_iff_eq.mpr rfl) hgt, by simp⟩

/-! ### Two comparisons

    A search with another comparison takes the same way down to the first element it reads where the two
    comparisons differ, and is then on the side the other one says. -/

section Compare

variable (xs : List α) (cmp comparison' : α → Ordering)

/-- The indices the search loop reads, in order. -/
def probes : ℕ → ℕ → ℕ → List ℕ
  | 0, _, _ => []
  | fuel + 1, low, top =>
    if low < top then
      let mid := (low + (top - 1)) / 2
      mid :: match xs[mid]?.map cmp with
        | some .lt => probes fuel (mid + 1) top
        | some .gt => probes fuel low mid
        | _ => []
    else []

/-- First index the search reads where the two comparisons differ. -/
def firstDifference : Option ℕ :=
  (probes xs cmp xs.length 0 xs.length).find? fun i =>
    xs[i]?.map comparison' ≠ xs[i]?.map cmp

/-- The result is an index above `m`, or an insertion point above `m`. -/
def After (m : ℕ) (r : ℤ) : Prop := (∃ j : ℕ, r = j ∧ m < j) ∨ ∃ p : ℕ, r = -((p : ℤ) + 1) ∧ m < p

/-- The result is an index below `m`, or an insertion point not above `m`. -/
def Before (m : ℕ) (r : ℤ) : Prop := (∃ j : ℕ, r = j ∧ j < m) ∨ ∃ p : ℕ, r = -((p : ℤ) + 1) ∧ p ≤ m

variable {xs cmp comparison'}

theorem loop_mem_window : ∀ (fuel low top : ℕ), low ≤ top →
    (∃ j : ℕ, loop xs cmp fuel low top = j ∧ low ≤ j ∧ j < top) ∨
      ∃ p : ℕ, loop xs cmp fuel low top = -((p : ℤ) + 1) ∧ low ≤ p ∧ p ≤ top
  | 0, low, top, hle => .inr ⟨low, rfl, le_rfl, hle⟩
  | fuel + 1, low, top, hle => by
    rw [loop]
    split
    · next hlt =>
      dsimp only
      split
      · obtain ⟨j, hj, hlow, htop⟩ | ⟨p, hp, hlow, htop⟩ :=
          loop_mem_window fuel ((low + (top - 1)) / 2 + 1) top (by omega)
        · exact .inl ⟨j, hj, by omega, htop⟩
        · exact .inr ⟨p, hp, by omega, htop⟩
      · obtain ⟨j, hj, hlow, htop⟩ | ⟨p, hp, hlow, htop⟩ :=
          loop_mem_window fuel low ((low + (top - 1)) / 2) (by omega)
        · exact .inl ⟨j, hj, hlow, by omega⟩
        · exact .inr ⟨p, hp, hlow, by omega⟩
      · exact .inl ⟨_, rfl, by omega, by omega⟩
      · exact .inr ⟨low, rfl, le_rfl, hle⟩
    · exact .inr ⟨low, rfl, le_rfl, hle⟩

theorem loop_after (fuel : ℕ) {m top : ℕ} (h : m < top) : After m (loop xs cmp fuel (m + 1) top) := by
  obtain ⟨j, hj, hlow, -⟩ | ⟨p, hp, hlow, -⟩ := @loop_mem_window _ xs cmp fuel (m + 1) top h
  · exact .inl ⟨j, hj, hlow⟩
  · exact .inr ⟨p, hp, hlow⟩

theorem loop_before (fuel : ℕ) {low m : ℕ} (h : low ≤ m) : Before m (loop xs cmp fuel low m) := by
  obtain ⟨j, hj, -, htop⟩ | ⟨p, hp, -, htop⟩ := @loop_mem_window _ xs cmp fuel low m h
  · exact .inl ⟨j, hj, htop⟩
  · exact .inr ⟨p, hp, htop⟩

variable (xs comparison') in
/-- The search by `comparison'` ends on the side of `m` that it says. -/
def Diverges (m : ℕ) (r : ℤ) : Prop :=
  (xs[m]?.map comparison' = some .eq ∧ r = m) ∨ (xs[m]?.map comparison' = some .lt ∧ After m r) ∨
    xs[m]?.map comparison' = some .gt ∧ Before m r

theorem loop_compare : ∀ (fuel low top : ℕ) (o : Option ℕ), ((probes xs cmp fuel low top).find? fun i =>
      xs[i]?.map comparison' ≠ xs[i]?.map cmp) = o →
    (o = none → loop xs comparison' fuel low top = loop xs cmp fuel low top) ∧
      ∀ m, o = some m → Diverges xs comparison' m (loop xs comparison' fuel low top)
  | 0, _, _, _, rfl => ⟨fun _ => rfl, fun m hm => by simp [probes] at hm⟩
  | fuel + 1, low, top, o, ho => by
    rw [probes] at ho
    rw [loop, loop]
    by_cases hlt : low < top
    · rw [if_pos hlt] at ho
      rw [if_pos hlt, if_pos hlt]
      dsimp only at ho ⊢
      by_cases hagree : xs[(low + (top - 1)) / 2]?.map comparison' = xs[(low + (top - 1)) / 2]?.map cmp
      · rw [find?_cons_of_neg (by simpa using hagree)] at ho
        rw [hagree]
        split at ho
        · next hlt' =>
          rw [hlt']
          exact loop_compare fuel _ _ o ho
        · next hgt' =>
          rw [hgt']
          exact loop_compare fuel _ _ o ho
        · next hnlt hngt =>
          subst ho
          refine ⟨fun _ => ?_, fun m hm => by simp at hm⟩
          split
          · next hlt' => exact absurd hlt' hnlt
          · next hgt' => exact absurd hgt' hngt
          · rfl
          · rfl
      · rw [find?_cons_of_pos (by simpa using hagree)] at ho
        subst ho
        refine ⟨nofun, fun m hm => ?_⟩
        cases hm
        split
        · next hlt' => exact .inr (.inl ⟨hlt', loop_after fuel (by omega)⟩)
        · next hgt' => exact .inr (.inr ⟨hgt', loop_before fuel (by omega)⟩)
        · next heq' => exact .inl ⟨heq', rfl⟩
        · next hnone' =>
          -- where there is no element the two cannot differ
          rw [Option.map_eq_none_iff] at hnone'
          exact absurd (by rw [hnone']; rfl) hagree
    · rw [if_neg hlt] at ho
      subst ho
      exact ⟨fun _ => by rw [if_neg hlt, if_neg hlt], fun m hm => by simp at hm⟩

theorem binarySearch_congr (h : firstDifference xs cmp comparison' = none) :
    binarySearch xs comparison' = binarySearch xs cmp :=
  (loop_compare _ _ _ _ h).1 rfl

theorem binarySearch_difference {m : ℕ} (h : firstDifference xs cmp comparison' = some m) :
    Diverges xs comparison' m (binarySearch xs comparison') :=
  (loop_compare _ _ _ _ h).2 m rfl

theorem difference_of_firstDifference {m : ℕ} (h : firstDifference xs cmp comparison' = some m) :
    xs[m]?.map comparison' ≠ xs[m]?.map cmp := by
  simpa using find?_some h

end Compare

end BinarySearch
