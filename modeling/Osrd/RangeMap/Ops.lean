import Osrd.RangeMap.Put

/-! What each operation of a range map does to the value at every distance.

    `put` with `lower < upper` writes its range and nothing else. A point (`lower = upper`) is another
    matter: above the map and at its first bound it writes nothing, but elsewhere the transition it
    inserts is not closed again and holds up to the next bound (`spillEnd`). `truncate` relies on two
    `putOptional` calls that may have their bounds the wrong way round, which change nothing. -/

open Transitions

namespace Osrd.RangeMap

open List

namespace DistanceRangeMapImpl

variable {T : Type}

/-! ### `put` -/

/-- Up to where a point written at `x` spills: the next bound, unless `x` is the first one. -/
def spillEnd (m : DistanceRangeMapImpl T) (x : Distance) : Option Distance :=
  if m.bounds.head? = some x then none else m.bounds.find? (x < ·)

/-- The distances that `put(lower, upper, _)` writes, for `lower ≤ upper`. -/
def writes (m : DistanceRangeMapImpl T) (lower upper x : Distance) : Prop :=
  if lower < upper then lower ≤ x ∧ x < upper else ∃ e ∈ m.spillEnd lower, lower ≤ x ∧ x < e

instance (m : DistanceRangeMapImpl T) (lower upper x : Distance) :
    Decidable (m.writes lower upper x) :=
  inferInstanceAs (Decidable (if lower < upper then _ else _))

variable {m : DistanceRangeMapImpl T}

theorem writes_of_lt {lower upper x : Distance} (h : lower < upper) :
    m.writes lower upper x ↔ lower ≤ x ∧ x < upper := by
  rw [writes, if_pos h]

theorem writes_point {p x : Distance} : m.writes p p x ↔ ∃ e ∈ m.spillEnd p, p ≤ x ∧ x < e := by
  rw [writes, if_neg (lt_irrefl p)]

section Writes

variable {m : DistanceRangeMapImpl T} {lb ub p x : Distance} {ts : List (Distance × Option T)}

theorem Shape.spillEnd_above (h : m.Shape lb ub ts) (hub : ub ≤ p) : m.spillEnd p = none := by
  rw [spillEnd]
  split
  · rfl
  · refine find?_eq_none.mpr fun b hb => ?_
    rw [h.repr.bounds_eq, mem_map] at hb
    obtain ⟨t, ht, rfl⟩ := hb
    simpa using (h.le_upper t ht).trans hub

theorem Shape.spillEnd_below (h : m.Shape lb ub ts) (hlb : p < lb) : m.spillEnd p = some lb := by
  have hhead := h.lower_eq
  obtain ⟨bs, hbs⟩ := head?_eq_some_iff.mp hhead
  rw [spillEnd, hbs, if_neg (by simpa using hlb.ne'), find?_cons_of_pos (by simpa using hlb)]

theorem Shape.spillEnd_inside (h : m.Shape lb ub ts) (hlb : lb < p) :
    m.spillEnd p = m.bounds.find? (p < ·) := by
  have hhead := h.lower_eq
  rw [lowerBound] at hhead
  rw [spillEnd, hhead, if_neg (by simpa using hlb.ne)]

end Writes

section Put

variable [DecidableEq T] {m : DistanceRangeMapImpl T} {lower upper : Distance}

theorem RepInv.putOptional_point (h : m.RepInv) (p : Distance) (v : Option T) :
    Yields (m.putOptional p p v) fun x => if m.writes p p x then v else m.rangeValue x := by
  simp only [writes_point]
  rcases h.empty_or_shape with rfl | ⟨lb, ub, ts, hsh⟩
  · refine (putOptional_empty (le_refl p) v).congr fun x => ?_
    have hspill : (empty : DistanceRangeMapImpl T).spillEnd p = none := rfl
    rw [hspill, if_neg fun hx => not_lt.mpr hx.1 hx.2, if_neg (by simp)]
    rfl
  rcases le_or_gt ub p with hub | hub
  · refine h.yields (hsh.putOptional_above_ge hub le_rfl (Or.inl rfl)) fun x => ?_
    simp [hsh.spillEnd_above hub]
  rcases le_or_gt p lb with hlb | hlb
  · refine (hsh.putOptional_point_below hlb v).congr fun x => ?_
    rw [hsh.rangeValue_eq]
    rcases hlb.lt_or_eq with hlt | rfl
    · simp [hsh.spillEnd_below hlt]
    · have hhead := hsh.lower_eq
      rw [lowerBound] at hhead
      simp [spillEnd, hhead]
  · obtain ⟨c, hc, hspec⟩ := hsh.putOptional_point_inside hlb hub v
    refine hspec.congr fun x => ?_
    rw [hsh.rangeValue_eq, hsh.spillEnd_inside hlb, hc]
    simp

/-- `put` throws nothing, keeps the invariant and writes its value where `writes` says. -/
theorem RepInv.put_spec (h : m.RepInv) (hlu : lower ≤ upper) (v : T) :
    Yields (m.put lower upper v) fun x => if m.writes lower upper x then some v else m.rangeValue x := by
  rcases hlu.lt_or_eq with hlt | rfl
  · simp only [writes_of_lt hlt]
    exact h.putOptional_lt hlt (some v)
  · exact h.putOptional_point lower (some v)

/-! ### `truncate`, `subMap` and `shiftPositions` -/

section Truncate

variable {lb ub : Distance} {ts : List (Distance × Option T)} (h : m.Shape lb ub ts)

include h

/-- Clearing a range, or nothing when its bounds are the wrong way round, keeps the values outside of it. -/
theorem Shape.clear {p : Distance → Prop} [DecidablePred p]
    (hsame : upper ≤ lower → m.putOptional lower upper none = some m)
    (hkept : ∀ x, p x → ¬ (lower ≤ x ∧ x < upper))
    (hnone : ∀ x, ¬ p x → ¬ (lower ≤ x ∧ x < upper) → m.rangeValue x = none) :
    Yields (m.putOptional lower upper none) fun x => if p x then m.rangeValue x else none := by
  rcases lt_or_ge lower upper with hlt | hge
  · refine (h.repInv.putOptional_lt hlt none).congr fun x => ?_
    by_cases hx : p x
    · rw [if_pos hx, if_neg (hkept x hx)]
    · rw [if_neg hx, ite_eq_left_iff]
      exact hnone x hx
  · refine h.repInv.yields (hsame hge) fun x => (ite_eq_left_iff.mpr fun hx => ?_).symm
    exact (hnone x hx fun hin => not_lt.mpr hge (hin.1.trans_lt hin.2)).symm

/-- Clearing below `beginOffset`. -/
theorem Shape.truncateBegin (beginOffset : Distance) :
    Yields (m.putOptional lb beginOffset none) fun x =>
      if beginOffset ≤ x then m.rangeValue x else none := by
  refine h.clear h.putOptional_wrong_below (fun x hx hin => not_lt.mpr hx hin.2) fun x hx hout => ?_
  exact h.rangeValue_of_lt (not_le.mp fun hle => hout ⟨hle, not_le.mp hx⟩)

/-- Clearing from `endOffset` on. -/
theorem Shape.truncateEnd (endOffset : Distance) :
    Yields (m.putOptional endOffset ub none) fun x => if x < endOffset then m.rangeValue x else none := by
  refine h.clear (fun hge => h.putOptional_above_ge le_rfl hge (Or.inr rfl))
    (fun x hx hin => not_lt.mpr hin.1 hx) fun x hx hout => ?_
  rw [h.rangeValue_eq, h.eval_of_ge (not_lt.mp fun hlt => hout ⟨not_lt.mp hx, hlt⟩)]

end Truncate

/-- `truncate` keeps the values of `[beginOffset, endOffset)`, whatever the two offsets. -/
theorem RepInv.truncate_spec (h : m.RepInv) (beginOffset endOffset : Distance) :
    Yields (m.truncate beginOffset endOffset)
      fun x => if beginOffset ≤ x ∧ x < endOffset then m.rangeValue x else none := by
  rcases h.empty_or_shape with rfl | ⟨lb, ub, ts, hsh⟩
  · exact h.yields rfl fun x => (ite_self (none : Option T)).symm
  obtain ⟨m₁, hm₁, hinv₁, hval₁⟩ := (hsh.truncateBegin beginOffset).exists
  rcases hinv₁.empty_or_shape with rfl | ⟨lb', ub', ts', hsh'⟩
  · refine hinv₁.yields ?_ fun x => ?_
    · simp only [truncate, hsh.lower_eq, hm₁]
      rfl
    · have hx := hval₁ x
      split
      · next hin => rw [hx, if_pos hin.1]
      · rfl
  · obtain ⟨m₂, hm₂, hinv₂, hval₂⟩ := (hsh'.truncateEnd endOffset).exists
    refine hinv₂.yields ?_ fun x => ?_
    · simp only [truncate, hsh.lower_eq, hm₁, hsh'.upper_eq, Option.bind_eq_bind, Option.bind_some, hm₂]
    · rw [hval₂, hval₁, ← ite_and]
      simp only [and_comm]

theorem RepInv.subMap_spec (h : m.RepInv) (hlu : lower < upper) :
    Yields (m.subMap lower upper) fun x => if lower ≤ x ∧ x < upper then m.rangeValue x else none := by
  simp only [subMap, hlu]
  exact h.truncate_spec lower upper

end Put

/-- The bounds that `shiftPositions` computes are those of exact arithmetic. -/
def ShiftInRange (m : DistanceRangeMapImpl T) (offset : Distance) : Prop :=
  ∀ b ∈ m.bounds, (b.plus offset).millimeters.toInt =
    b.millimeters.toInt + offset.millimeters.toInt

instance (m : DistanceRangeMapImpl T) (offset : Distance) : Decidable (m.ShiftInRange offset) :=
  inferInstanceAs (Decidable (∀ b ∈ m.bounds, _))

theorem RepInv.shiftPositions {offset : Distance} (h : m.RepInv) (hrange : m.ShiftInRange offset) :
    (m.shiftPositions offset).RepInv := by
  rcases h with ⟨hb, hv⟩ | ⟨hsorted, hlen, hvalues⟩
  · exact Or.inl ⟨by simp [DistanceRangeMapImpl.shiftPositions, hb], hv⟩
  · refine Or.inr ⟨?_, by simpa [DistanceRangeMapImpl.shiftPositions] using hlen, hvalues⟩
    refine pairwise_map.mpr (hsorted.imp_of_mem fun {a b} ha hb hab => ?_)
    rw [Distance.lt_iff_toInt, hrange a ha, hrange b hb]
    exact Int.add_lt_add_right hab _

/-! ### Iteration -/

/-- The ranges with a value, read off the transitions. -/
def entriesOf : List (Distance × Option T) → List (RangeMapEntry T)
  | (b, some v) :: (b', w) :: ts => ⟨b, b', v⟩ :: entriesOf ((b', w) :: ts)
  | (_, none) :: ts => entriesOf ts
  | _ => []

/-- `x` lies in the range of the entry. -/
def Covers (e : RangeMapEntry T) (x : Distance) : Prop := e.lower ≤ x ∧ x < e.upper

instance (e : RangeMapEntry T) (x : Distance) : Decidable (Covers e x) :=
  inferInstanceAs (Decidable (_ ∧ _))

/-- Value at `x` once the entries are laid over `r`, later ones on top. -/
def overlay (r : Option T) (es : List (RangeMapEntry T)) (x : Distance) : Option T :=
  es.foldl (fun r e => if Covers e x then some e.value else r) r

theorem overlay_cons (r : Option T) (e : RangeMapEntry T) (es : List (RangeMapEntry T)) (x : Distance) :
    overlay r (e :: es) x = overlay (if Covers e x then some e.value else r) es x := rfl

theorem overlay_append (r : Option T) (es fs : List (RangeMapEntry T)) (x : Distance) :
    overlay r (es ++ fs) x = overlay (overlay r es x) fs x :=
  foldl_append

theorem overlay_of_not_covers {es : List (RangeMapEntry T)} {x : Distance} :
    ∀ {r : Option T}, (∀ e ∈ es, ¬ Covers e x) → overlay r es x = r := by
  induction es with
  | nil => exact fun _ => rfl
  | cons e es ih =>
    intro r h
    rw [overlay_cons, if_neg (h e mem_cons_self)]
    exact ih (forall_mem_cons.mp h).2

section Iteration

variable {bounds : List Distance} {values : List (Option T)} {ts : List (Distance × Option T)}

theorem Repr.forEachCalls_eq (h : Repr bounds values ts) :
    forEachCalls bounds values = some (entriesOf ts) := by
  induction h with
  | last b => rfl
  | cons b v htail ih =>
    cases htail with
    | last b' =>
      cases v <;> rfl
    | cons b' w htail =>
      cases v with
      | none =>
        rw [entriesOf, ← ih]
        rfl
      | some v =>
        rw [entriesOf, forEachCalls, ih]
        rfl

/-- The iterator and `forEach` agree when no gap follows another and none is last. -/
theorem Repr.iterate_eq (h : Repr bounds values ts) :
    ∀ prev, Alternates prev ts → iterate bounds values = forEachCalls bounds values := by
  induction h with
  | last b => exact fun _ _ => rfl
  | cons b v htail ih =>
    intro prev halt
    have htailEq := ih v halt.2
    cases htail with
    | last b' =>
      cases v with
      | none => exact absurd rfl halt.2.1
      | some v => rfl
    | cons b' w htail =>
      cases v with
      | some v => rw [iterate, forEachCalls, htailEq]
      | none =>
        cases w with
        | none => exact absurd rfl halt.2.1
        | some w =>
          cases htail with
          | last b'' => rfl
          | cons b'' w' htail =>
            rw [forEachCalls, ← htailEq]
            rfl

theorem lower_mem_of_entriesOf {e : RangeMapEntry T} : ∀ {ts : List (Distance × Option T)},
    e ∈ entriesOf ts → e.lower ∈ ts.map Prod.fst
  | (b, some v) :: (b', w) :: ts, h => by
    rcases mem_cons.mp h with rfl | h
    · exact mem_cons_self
    · exact mem_cons_of_mem _ (lower_mem_of_entriesOf h)
  | (_, none) :: ts, h => mem_cons_of_mem _ (lower_mem_of_entriesOf h)
  | [(_, some _)], h => by simp [entriesOf] at h

theorem entriesOf_lower_lt_upper {e : RangeMapEntry T} : ∀ {ts : List (Distance × Option T)},
    StrictSorted ts → e ∈ entriesOf ts → e.lower < e.upper
  | (b, some v) :: (b', w) :: ts, hs, h => by
    rcases mem_cons.mp h with rfl | h
    · exact (pairwise_cons.mp hs).1 (b', w) mem_cons_self
    · exact entriesOf_lower_lt_upper hs.tail h
  | (_, none) :: ts, hs, h => entriesOf_lower_lt_upper hs.tail h
  | [(_, some _)], _, h => by simp [entriesOf] at h

theorem entriesOf_not_covers {x : Distance} (h : ∀ t ∈ ts, x < t.1) :
    ∀ e ∈ entriesOf ts, ¬ Covers e x := by
  intro e he hcov
  obtain ⟨t, ht, heq⟩ := mem_map.mp (lower_mem_of_entriesOf he)
  exact not_le.mpr (h t ht) (heq ▸ hcov.1)

/-- The entries hold the value of every distance. -/
theorem Repr.overlay_entriesOf (h : Repr bounds values ts) (x : Distance) :
    Sorted ts → overlay none (entriesOf ts) x = eval none ts x := by
  induction h with
  | last b => intro _; simp [entriesOf, overlay, eval]
  | cons b v htail ih =>
    intro hs
    have hle := (pairwise_cons.mp hs).1
    cases v with
    | none => rw [entriesOf, ih hs.tail, eval_cons_self hle]
    | some v =>
      obtain ⟨⟨b', w⟩, us, rfl⟩ := exists_cons_of_ne_nil htail.ne_nil
      rw [entriesOf, overlay_cons, eval]
      by_cases hb : x < b
      · -- before the first range
        have hlt : ∀ t ∈ (b', w) :: us, x < t.1 := fun t ht => hb.trans_le (hle t ht)
        rw [if_pos hb, if_neg fun hcov => not_le.mpr hb hcov.1,
          overlay_of_not_covers (entriesOf_not_covers hlt)]
      by_cases hb' : x < b'
      · -- in the first range, which no later one covers
        have hcov : Covers (⟨b, b', v⟩ : RangeMapEntry T) x := ⟨not_lt.mp hb, hb'⟩
        have hlt : ∀ t ∈ (b', w) :: us, x < t.1 := forall_mem_cons.mpr
          ⟨hb', fun t ht => hb'.trans_le ((pairwise_cons.mp hs.tail).1 t ht)⟩
        rw [if_neg hb, if_pos hcov, overlay_of_not_covers (entriesOf_not_covers hlt), eval_of_lt hlt]
      · rw [if_neg hb, if_neg fun hcov => hb' hcov.2, ih hs.tail, eval, eval, if_neg hb', if_neg hb']

end Iteration

/-- Iterating a map throws nothing, and its entries are its non-empty ranges. -/
theorem RepInv.entries_spec (h : m.RepInv) :
    ∃ es, m.toList = some es ∧ m.forEach = some es ∧ (∀ e ∈ es, e.lower < e.upper) ∧
      ∀ x, overlay none es x = m.rangeValue x := by
  rcases h.empty_or_shape with rfl | ⟨lb, ub, ts, hsh⟩
  · exact ⟨[], rfl, rfl, by simp, fun x => rfl⟩
  · have hcalls := hsh.repr.forEachCalls_eq
    refine ⟨entriesOf ts, ?_, hcalls, fun e he => ?_, fun x => ?_⟩
    · rw [toList, hsh.repr.iterate_eq none hsh.canonical.alternates, hcalls]
    · exact entriesOf_lower_lt_upper hsh.canonical.sorted he
    · rw [hsh.repr.overlay_entriesOf x hsh.canonical.sorted.sorted, hsh.rangeValue_eq]

end DistanceRangeMapImpl

end Osrd.RangeMap
