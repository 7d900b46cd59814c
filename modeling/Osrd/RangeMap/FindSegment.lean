import Osrd.RangeMap.Impl

/-! Model of `findSegment` on an array of segment boundaries (`core/osrd-mp/.../utils/units/Distance.kt`).

    The index of a boundary, or of the segment around an offset, is found by a binary search whose comparator
    is the difference of the two offsets cut down to 32 bits. The guard before it compares the offset with 0,
    not with the first boundary. -/

open BinarySearch List

namespace Osrd.RangeMap

open Option

inductive Direction
  | increasing
  | decreasing
  deriving DecidableEq

/-! ### The function -/

/-- The comparator of `OffsetArray.binarySearch`: the sign of `(a - b).millimeters.toInt()`. -/
def narrowCompare (a b : Distance) : Ordering :=
  compare (a.millimeters - b.millimeters).toInt32 0

/-- Segment of the boundary with the given index, among `sectionCount` segments. -/
def boundarySegment (sectionCount : ℕ) (direction : Direction) (boundIndex : ℕ) : ℕ :=
  if boundIndex = 0 then 0
  else if boundIndex = sectionCount then sectionCount - 1
  else match direction with
    | .increasing => boundIndex - 1
    | .decreasing => boundIndex

/-- What `findSegment` makes of the result of the binary search. -/
def segmentAt (sectionCount : ℕ) (direction : Direction) (boundIndex : ℤ) : Option ℤ :=
  if 0 ≤ boundIndex then some (boundarySegment sectionCount direction boundIndex.toNat)
  else
    let insertionPos := -(boundIndex + 1)
    if 1 ≤ insertionPos ∧ insertionPos ≤ sectionCount then some (insertionPos - 1) else none

variable (bounds : List Distance)

/-- Index of the segment that contains the offset, -1 out of bounds; `none` when it throws. -/
def findSegment (offset : Distance) (direction : Direction) : Option ℤ := do
  let sectionCount := bounds.length - 1
  if offset < ⟨0⟩ then some (-1)
  else
    let last ← bounds[sectionCount]?
    if last < offset then some (-1)
    else segmentAt sectionCount direction (binarySearch bounds (narrowCompare · offset))

/-! ### What the documentation asks for -/

/-- The offset is below the first boundary. -/
def Below (x : Distance) : Prop := ∀ first ∈ bounds.head?, x < first

/-- The offset is above the last boundary. -/
def Above (x : Distance) : Prop := ∀ last ∈ bounds.getLast?, last < x

instance (bounds : List Distance) (x : Distance) : Decidable (Above bounds x) :=
  inferInstanceAs (Decidable (∀ last ∈ bounds.getLast?, last < x))

/-- The right answer: -1 out of bounds, otherwise a segment around the offset; at an inner boundary the one
    that is met first along the direction. -/
structure SegmentFound (bounds : List Distance) (x : Distance) (direction : Direction) (r : ℤ) : Prop where
  outside : r = -1 ↔ Below bounds x ∨ Above bounds x
  inside : ¬ Below bounds x → ¬ Above bounds x →
    ∃ i : ℕ, r = i ∧ (∃ lower, bounds[i]? = some lower ∧ lower ≤ x) ∧
      ∃ upper, bounds[i + 1]? = some upper ∧ x ≤ upper
  boundary : ∀ k, 0 < k → k + 1 < bounds.length → bounds[k]? = some x →
    r = match direction with
      | .increasing => (k : ℤ) - 1
      | .decreasing => k

/-! ### Indices of boundaries -/

variable {direction : Direction}

section Bounds

variable {bounds : List Distance} (hsorted : bounds.Pairwise (· < ·))

include hsorted

variable {i j : ℕ} {a b : Distance} (hi : bounds[i]? = some a) (hj : bounds[j]? = some b)

include hi hj in
theorem lt_of_index_lt (hij : i < j) : a < b := by
  obtain ⟨hi', rfl⟩ := List.getElem?_eq_some_iff.mp hi
  obtain ⟨hj', rfl⟩ := List.getElem?_eq_some_iff.mp hj
  exact pairwise_iff_getElem.mp hsorted i j hi' hj' hij

include hi hj in
theorem index_lt_of_lt (hab : a < b) : i < j := by
  by_contra hle
  rcases (not_lt.mp hle).lt_or_eq with hlt | rfl
  · exact absurd (lt_of_index_lt hsorted hj hi hlt) hab.asymm
  · exact hab.ne (some.inj (hi.symm.trans hj))

include hi hj in
theorem index_le_of_le (hab : a ≤ b) : i ≤ j := by
  by_contra hlt
  exact absurd (lt_of_index_lt hsorted hj hi (not_le.mp hlt)) hab.not_gt

variable {x : Distance}

/-- A boundary is neither below the first one nor above the last one. -/
theorem not_outside_of_boundary {k : ℕ} (hk : bounds[k]? = some x) :
    ¬ (Below bounds x ∨ Above bounds x) := by
  have hlen : k < bounds.length := (List.getElem?_eq_some_iff.mp hk).1
  rintro (hbelow | habove)
  · obtain ⟨first, hfirst⟩ : ∃ first, bounds[0]? = some first := ⟨_, getElem?_eq_getElem (by omega)⟩
    have hlt : x < first := hbelow first (by rwa [head?_eq_getElem?])
    exact absurd (index_lt_of_lt hsorted hk hfirst hlt) (by omega)
  · obtain ⟨last, hlast⟩ : ∃ last, bounds[bounds.length - 1]? = some last :=
      ⟨_, getElem?_eq_getElem (by omega)⟩
    have hlt : last < x := habove last (by rwa [getLast?_eq_getElem?])
    exact absurd (index_lt_of_lt hsorted hlast hk hlt) (by omega)

theorem segmentFound_outside_iff :
    SegmentFound bounds x direction (-1) ↔ Below bounds x ∨ Above bounds x := by
  refine ⟨fun h => h.outside.mp rfl, fun h => ⟨iff_of_true rfl h, fun hbelow habove => ?_,
    fun k _ _ hk => ?_⟩⟩
  · exact absurd h (not_or.mpr ⟨hbelow, habove⟩)
  · exact absurd h (not_outside_of_boundary hsorted hk)

/-! ### A search that compares all the bits -/

variable (hlen : 2 ≤ bounds.length)

include hlen

/-- The segment of a boundary is the right answer there. -/
theorem segmentFound_boundary {k : ℕ} (direction : Direction) (hk : bounds[k]? = some x) :
    SegmentFound bounds x direction (boundarySegment (bounds.length - 1) direction k) := by
  have hklt : k < bounds.length := (List.getElem?_eq_some_iff.mp hk).1
  have hget : ∀ i, i < bounds.length → ∃ b, bounds[i]? = some b := fun i hi => ⟨_, getElem?_eq_getElem hi⟩
  refine ⟨iff_of_false (by omega) (not_outside_of_boundary hsorted hk), fun _ _ => ⟨_, rfl, ?_⟩, ?_⟩
  · have hseg : boundarySegment (bounds.length - 1) direction k ≤ k ∧
        k ≤ boundarySegment (bounds.length - 1) direction k + 1 ∧
        boundarySegment (bounds.length - 1) direction k + 1 < bounds.length := by
      unfold boundarySegment
      split_ifs with h0 hn
      · omega
      · omega
      · cases direction <;> dsimp only <;> omega
    obtain ⟨lower, hlower⟩ := hget _ (by omega : boundarySegment (bounds.length - 1) direction k < _)
    obtain ⟨upper, hupper⟩ := hget _ hseg.2.2
    refine ⟨⟨lower, hlower, ?_⟩, ⟨upper, hupper, ?_⟩⟩
    · by_contra hlt
      exact absurd (index_lt_of_lt hsorted hk hlower (not_le.mp hlt)) (by omega)
    · by_contra hlt
      exact absurd (index_lt_of_lt hsorted hupper hk (not_le.mp hlt)) (by omega)
  · intro k' hpos hlast hk'
    obtain rfl : k = k' :=
      le_antisymm (index_le_of_le hsorted hk hk' le_rfl) (index_le_of_le hsorted hk' hk le_rfl)
    rw [boundarySegment.eq_def, if_neg (by omega), if_neg (by omega)]
    cases direction with
    | increasing =>
      dsimp only
      omega
    | decreasing => rfl

/-- With the full comparison, the answer between the first and the last boundary is right. -/
theorem exists_segmentAt (direction : Direction) (hbelow : ¬ Below bounds x) (habove : ¬ Above bounds x) :
    ∃ r, segmentAt (bounds.length - 1) direction (binarySearch bounds (compare · x)) = some r ∧
      SegmentFound bounds x direction r := by
  rcases binarySearch_compare hsorted x with ⟨k, hk, hboundary⟩ | ⟨k, hk, hcut⟩
  · rw [hk, segmentAt, if_pos (Int.natCast_nonneg k), Int.toNat_natCast]
    exact ⟨_, rfl, segmentFound_boundary hsorted hlen direction hboundary⟩
  · -- `k` boundaries are below `x`: not none, not all
    have hpos : 0 < k := by
      refine Nat.pos_of_ne_zero fun hk0 => hbelow fun first hfirst => ?_
      rw [mem_def, head?_eq_getElem?] at hfirst
      exact (hcut 0 first hfirst).2 (by omega)
    have hle : k ≤ bounds.length - 1 := by
      by_contra hgt
      refine habove fun last hlast => ?_
      rw [mem_def, getLast?_eq_getElem?] at hlast
      exact (hcut _ last hlast).1 (by omega)
    obtain ⟨lower, hlower⟩ : ∃ lower, bounds[k - 1]? = some lower := ⟨_, getElem?_eq_getElem (by omega)⟩
    obtain ⟨upper, hupper⟩ : ∃ upper, bounds[k]? = some upper := ⟨_, getElem?_eq_getElem (by omega)⟩
    refine ⟨((k - 1 : ℕ) : ℤ), ?_, iff_of_false (by omega) (not_or.mpr ⟨hbelow, habove⟩), fun _ _ => ?_, ?_⟩
    · rw [hk, segmentAt, if_neg (by omega)]
      rw [if_pos (by omega), some.injEq]
      omega
    · refine ⟨_, rfl, ⟨lower, hlower, ((hcut _ lower hlower).1 (by omega)).le⟩, upper, ?_,
        ((hcut _ upper hupper).2 le_rfl).le⟩
      rwa [Nat.sub_add_cancel hpos]
    · intro i _ _ hi
      obtain ⟨hlt, hgt⟩ := hcut i x hi
      rcases lt_or_ge i k with hik | hki
      · exact absurd (hlt hik) (lt_irrefl x)
      · exact absurd (hgt hki) (lt_irrefl x)

end Bounds

/-! ### The search that compares 32 bits -/

theorem narrowCompare_self (x : Distance) : narrowCompare x x = .eq := by
  rw [narrowCompare, Int64.sub_self]
  rfl

/-- The segment of a boundary is next to it, that of an insertion position ends at it. -/
theorem segmentAt_spec {n : ℕ} {b r : ℤ} (h : segmentAt n direction b = some r) :
    0 ≤ r ∧ (0 ≤ b ∧ (r = b ∨ r = b - 1) ∨ b < 0 ∧ r = -b - 2) := by
  unfold segmentAt at h
  split_ifs at h with hb
  · cases h
    have hnext : boundarySegment n direction b.toNat = b.toNat ∨
        boundarySegment n direction b.toNat = b.toNat - 1 ∧ b.toNat ≠ 0 := by
      rw [boundarySegment.eq_def]
      cases direction <;> dsimp only <;> split_ifs <;> omega
    omega
  · dsimp only at h
    split_ifs at h with hpos
    cases h
    omega

theorem segmentAt_after {n m : ℕ} {b r : ℤ} (hb : After m b) (h : segmentAt n direction b = some r) :
    m ≤ r := by
  have hspec := (segmentAt_spec h).2
  rcases hb with ⟨j, rfl, hj⟩ | ⟨p, rfl, hp⟩ <;> omega

theorem segmentAt_before {n m : ℕ} {b r : ℤ} (hb : Before m b) (h : segmentAt n direction b = some r) :
    r < m := by
  have hspec := (segmentAt_spec h).2
  rcases hb with ⟨j, rfl, hj⟩ | ⟨p, rfl, hp⟩ <;> omega

/-- The first boundary that the search for `x` reads where the 32 bits do not have the sign of the whole
    difference. -/
def firstMisread (x : Distance) : Option ℕ :=
  firstDifference bounds (compare · x) (narrowCompare · x)

section Main

variable {bounds : List Distance} (hsorted : bounds.Pairwise (· < ·)) (hlen : 2 ≤ bounds.length)
  {x : Distance} {direction : Direction}

include hsorted

variable {m : ℕ} {b : Distance} {i r : ℤ} (hbelow : ¬ Below bounds x) (habove : ¬ Above bounds x)
  (hm : bounds[m]? = some b)

include hbelow habove hm in
/-- A boundary read as below `x` when it is above: the answer is too high. -/
theorem not_segmentFound_after (hxb : x < b) (hi : After m i)
    (hr : segmentAt (bounds.length - 1) direction i = some r) : ¬ SegmentFound bounds x direction r := by
  intro hfound
  obtain ⟨j, rfl, ⟨lower, hlower, hle⟩, -⟩ := hfound.inside hbelow habove
  have hjm := index_lt_of_lt hsorted hlower hm (hle.trans_lt hxb)
  have hmj := segmentAt_after hi hr
  omega

include hbelow habove hm in
/-- A boundary read as above `x` when it is below: the answer is too low. -/
theorem not_segmentFound_before (hbx : b < x) (hi : Before m i)
    (hr : segmentAt (bounds.length - 1) direction i = some r) : ¬ SegmentFound bounds x direction r := by
  intro hfound
  have hmlt : m < bounds.length := (List.getElem?_eq_some_iff.mp hm).1
  obtain ⟨j, rfl, -, ⟨upper, hupper, hle⟩⟩ := hfound.inside hbelow habove
  have hmj := index_lt_of_lt hsorted hm hupper (hbx.trans_le hle)
  have hjm := segmentAt_before hi hr
  omega

include hlen

/-- Between the first and the last boundary, the search is right exactly when it misreads no boundary, or the
    first one it misreads it takes for `x` itself and the segment of that boundary is right for `x`. -/
theorem segmentAt_narrow_iff (hbelow : ¬ Below bounds x) (habove : ¬ Above bounds x) :
    (∃ r, segmentAt (bounds.length - 1) direction (binarySearch bounds (narrowCompare · x)) = some r ∧
      SegmentFound bounds x direction r) ↔
    ∀ m ∈ firstMisread bounds x, bounds[m]?.map (narrowCompare · x) = some .eq ∧
      SegmentFound bounds x direction (boundarySegment (bounds.length - 1) direction m) := by
  cases hmisread : firstMisread bounds x with
  | none =>
    rw [binarySearch_congr hmisread]
    exact iff_of_true (exists_segmentAt hsorted hlen direction hbelow habove) (by simp)
  | some m =>
    have hdiffer := difference_of_firstDifference hmisread
    simp only [mem_def, some.injEq, forall_eq']
    rcases binarySearch_difference hmisread with ⟨heq, hsearch⟩ | ⟨hlt, hafter⟩ | ⟨hgt, hbefore⟩
    · rw [hsearch, segmentAt, if_pos (Int.natCast_nonneg m), Int.toNat_natCast]
      simp [heq]
    · refine iff_of_false ?_ fun h => absurd (hlt.symm.trans h.1) (by simp)
      rintro ⟨r, hr, hfound⟩
      obtain ⟨b, hb, hcmp⟩ := map_eq_some_iff.mp hlt
      rw [hb] at hdiffer
      rcases lt_trichotomy b x with hbx | rfl | hxb
      · exact hdiffer (by simp [hcmp, compare_lt_iff_lt.mpr hbx])
      · exact absurd (hcmp.symm.trans (narrowCompare_self b)) (by simp)
      · exact not_segmentFound_after hsorted hbelow habove hb hxb hafter hr hfound
    · refine iff_of_false ?_ fun h => absurd (hgt.symm.trans h.1) (by simp)
      rintro ⟨r, hr, hfound⟩
      obtain ⟨b, hb, hcmp⟩ := map_eq_some_iff.mp hgt
      rw [hb] at hdiffer
      rcases lt_trichotomy b x with hbx | rfl | hxb
      · exact not_segmentFound_before hsorted hbelow habove hb hbx hbefore hr hfound
      · exact absurd (hcmp.symm.trans (narrowCompare_self b)) (by simp)
      · exact hdiffer (by simp [hcmp, compare_gt_iff_gt.mpr hxb])

omit hsorted in
/-- The guards, and the search between them. -/
theorem findSegment_eq : findSegment bounds x direction = if x < ⟨0⟩ ∨ Above bounds x then some (-1)
    else segmentAt (bounds.length - 1) direction (binarySearch bounds (narrowCompare · x)) := by
  obtain ⟨last, hlast⟩ : ∃ last, bounds[bounds.length - 1]? = some last :=
    ⟨_, getElem?_eq_getElem (by omega)⟩
  have habove : Above bounds x ↔ last < x := by simp [Above, getLast?_eq_getElem?, hlast]
  simp only [findSegment, hlast, bind_eq_bind, bind_some]
  by_cases hneg : x < ⟨0⟩
  · rw [if_pos hneg, if_pos (.inl hneg)]
  · by_cases hout : last < x
    · rw [if_neg hneg, if_pos hout, if_pos (.inr (habove.mpr hout))]
    · rw [if_neg hneg, if_neg hout, if_neg (not_or.mpr ⟨hneg, mt habove.mp hout⟩)]

/-- `findSegment` is right exactly when 0 and the first boundary are on the same side of the offset, and the
    search misreads no boundary (or is right by luck at the first one). -/
theorem findSegment_right_iff :
    (∃ r, findSegment bounds x direction = some r ∧ SegmentFound bounds x direction r) ↔
      (x < ⟨0⟩ → Below bounds x ∨ Above bounds x) ∧ (⟨0⟩ ≤ x → ¬ Above bounds x → ¬ Below bounds x ∧
        ∀ m ∈ firstMisread bounds x, bounds[m]?.map (narrowCompare · x) = some .eq ∧
          SegmentFound bounds x direction (boundarySegment (bounds.length - 1) direction m)) := by
  rw [findSegment_eq hlen]
  by_cases hguard : x < ⟨0⟩ ∨ Above bounds x
  · rw [if_pos hguard]
    simp only [some.injEq, exists_eq_left', segmentFound_outside_iff hsorted]
    constructor
    · intro hout
      refine ⟨fun _ => hout, fun hnonneg habove => ?_⟩
      exact absurd (hguard.resolve_right habove) hnonneg.not_gt
    · rintro ⟨hneg, -⟩
      exact hguard.elim hneg .inr
  · obtain ⟨hneg, habove⟩ := not_or.mp hguard
    have hcond : ∀ {P Q : Prop}, (x < ⟨0⟩ → P) ∧ (⟨0⟩ ≤ x → ¬ Above bounds x → Q) ↔ Q := fun {P Q} =>
      ⟨fun h => h.2 (not_lt.mp hneg) habove, fun h => ⟨fun hlt => absurd hlt hneg, fun _ _ => h⟩⟩
    rw [if_neg hguard, hcond]
    by_cases hbelow : Below bounds x
    · refine iff_of_false ?_ fun h => h.1 hbelow
      rintro ⟨r, hr, hfound⟩
      have hpos := (segmentAt_spec hr).1
      have hminus := hfound.outside.mpr (.inl hbelow)
      omega
    · rw [segmentAt_narrow_iff hsorted hlen hbelow habove]
      exact (and_iff_right hbelow).symm

end Main

/-- The array of the documentation, at its inner boundary. -/
theorem findSegment_right_inner : findSegment [⟨2⟩, ⟨4⟩, ⟨6⟩] ⟨4⟩ .decreasing = some 1 ∧
      ∃ r, findSegment [⟨2⟩, ⟨4⟩, ⟨6⟩] ⟨4⟩ .decreasing = some r ∧
        SegmentFound [⟨2⟩, ⟨4⟩, ⟨6⟩] ⟨4⟩ .decreasing r := by
  refine ⟨by decide +kernel, (findSegment_right_iff (by decide +kernel) (by simp)).mpr ⟨?_, ?_⟩⟩
  · exact fun hneg => absurd hneg (by decide +kernel)
  · intro _ _
    have hnone : firstMisread [⟨2⟩, ⟨4⟩, ⟨6⟩] ⟨4⟩ = none := by decide +kernel
    refine ⟨fun hbelow => absurd (hbelow ⟨2⟩ rfl) (by decide +kernel), ?_⟩
    rw [hnone]
    simp

/-- The array of the documentation throws below its first boundary, and 4000 km are not found between 0 and
    5000 km: the difference of 4,000,000,000 mm does not fit in 32 bits. -/
theorem findSegment_throws : findSegment [⟨2⟩, ⟨4⟩, ⟨6⟩] ⟨1⟩ .increasing = none ∧
      findSegment [⟨-4⟩, ⟨4⟩] ⟨-2⟩ .increasing = some (-1) ∧
      findSegment [⟨0⟩, ⟨5000000000⟩] ⟨4000000000⟩ .increasing = none := by
  decide +kernel

end Osrd.RangeMap
