import Mathlib.Data.List.Chain
import Osrd.RangeMap.PutMany

/-! What a range map holds at each distance, read off its entries.

    The entries of a map are ordered, none is empty, and two that touch have different values
    (`EntriesInv`), so a distance is in at most one of them. `valueOf` is the value of that entry; `get` also
    answers at the upper end of an entry that nothing follows. -/

open Transitions Option

namespace Osrd.RangeMap

open List

namespace DistanceRangeMapImpl

variable {T : Type} {m : DistanceRangeMapImpl T}

/-! ### The entries of a map -/

/-- The second entry is above the first one, and does not continue it. -/
def Follows (e e' : RangeMapEntry T) : Prop :=
  e.upper < e'.lower ∨ e.upper = e'.lower ∧ e.value ≠ e'.value

/-- Entries in order, none of them empty, none continuing the one before. -/
structure EntriesInv (es : List (RangeMapEntry T)) : Prop where
  pos : ∀ e ∈ es, e.lower < e.upper
  chain : es.IsChain Follows

variable {e e' : RangeMapEntry T} {es : List (RangeMapEntry T)}

theorem Follows.upper_le (h : Follows e e') : e.upper ≤ e'.lower := by
  rcases h with hlt | ⟨heq, -⟩
  · exact hlt.le
  · exact heq.le

theorem EntriesInv.tail (h : EntriesInv (e :: es)) : EntriesInv es :=
  ⟨(forall_mem_cons.mp h.pos).2, h.chain.tail⟩

/-- The entries after the first one are above it. -/
theorem EntriesInv.head_le : ∀ {es : List (RangeMapEntry T)} {e : RangeMapEntry T},
    EntriesInv (e :: es) → ∀ e' ∈ es, e.upper ≤ e'.lower
  | e' :: es, e, h, e'', he'' => by
    have hle := (isChain_cons_cons.mp h.chain).1.upper_le
    rcases mem_cons.mp he'' with rfl | he''
    · exact hle
    · have hpos := h.pos e' (by simp)
      exact hle.trans (hpos.le.trans (h.tail.head_le e'' he''))

theorem EntriesInv.pairwise : ∀ {es : List (RangeMapEntry T)}, EntriesInv es →
    es.Pairwise (fun e e' => e.upper ≤ e'.lower)
  | [], _ => .nil
  | _ :: _, h => .cons h.head_le h.tail.pairwise

/-- The first entry of transitions that alternate starts at the first one with a value. -/
theorem entriesOf_head : ∀ {ts : List (Distance × Option T)} {b : Distance} {v : Option T},
    StrictSorted ((b, v) :: ts) → Alternates v ts → ∀ e' ∈ (entriesOf ((b, v) :: ts)).head?,
    b < e'.lower ∨ b = e'.lower ∧ v = some e'.value
  | [], b, v, _, _, e', he' => by cases v <;> simp [entriesOf] at he'
  | (b', w) :: ts, b, some v, _, _, e', he' => by
    rw [entriesOf, head?_cons, mem_some_iff] at he'
    subst he'
    exact .inr ⟨rfl, rfl⟩
  | (b', w) :: ts, b, none, hs, halt, e', he' => by
    have hlt : b < b' := (pairwise_cons.mp hs).1 (b', w) mem_cons_self
    rcases entriesOf_head hs.tail halt.2 e' he' with h | ⟨h, -⟩
    · exact .inl (hlt.trans h)
    · exact .inl (h ▸ hlt)

theorem entriesOf_chain : ∀ {ts : List (Distance × Option T)} {prev : Option T}, StrictSorted ts →
    Alternates prev ts → (entriesOf ts).IsChain Follows
  | [], _, _, _ => .nil
  | [(_, none)], _, _, _ => .nil
  | [(_, some _)], _, _, _ => .nil
  | (b, none) :: t :: ts, prev, hs, halt => by
    rw [entriesOf]
    exact entriesOf_chain hs.tail halt.2
  | (b, some v) :: (b', w) :: ts, prev, hs, halt => by
    rw [entriesOf, isChain_cons]
    refine ⟨fun e' he' => ?_, entriesOf_chain hs.tail halt.2⟩
    rcases entriesOf_head hs.tail halt.2.2 e' he' with hlt | ⟨heq, hvalue⟩
    · exact .inl hlt
    · refine .inr ⟨heq, fun hsame => halt.2.1 ?_⟩
      rw [hvalue, ← hsame]

theorem RepInv.entriesInv (h : m.RepInv) :
    ∃ es, m.toList = some es ∧ m.forEach = some es ∧ EntriesInv es ∧
      ∀ x, overlay none es x = m.rangeValue x := by
  obtain ⟨es, hlist, hcalls, hpos, hoverlay⟩ := h.entries_spec
  refine ⟨es, hlist, hcalls, ⟨hpos, ?_⟩, hoverlay⟩
  rcases h.empty_or_shape with rfl | ⟨lb, ub, ts, hsh⟩
  · obtain rfl : es = [] := by simpa [toList, empty, iterate] using hlist
    exact .nil
  · rw [forEach, hsh.repr.forEachCalls_eq, some.injEq] at hcalls
    subst hcalls
    exact entriesOf_chain hsh.canonical.sorted hsh.canonical.alternates

/-! ### The value at a distance -/

/-- Value of the first of the entries that contains the distance. -/
def entryValue (es : List (RangeMapEntry T)) (x : Distance) : Option T :=
  (es.find? (Covers · x)).map (·.value)

/-- `m[x]`: the value of the entry that contains the distance. -/
def valueOf (m : DistanceRangeMapImpl T) (x : Distance) : Option T := entryValue (m.toList.getD []) x

/-- The value of the entry that ends at the distance. -/
def valueEndingAt (m : DistanceRangeMapImpl T) (x : Distance) : Option T :=
  ((m.toList.getD []).find? (·.upper = x)).map (·.value)

/-- After the entry that ends above a distance, no entry contains it. -/
theorem EntriesInv.find?_tail (h : EntriesInv (e :: es)) {x : Distance} (hx : x < e.upper) :
    es.find? (Covers · x) = none := by
  refine find?_eq_none.mpr fun e' he' hcov => ?_
  exact absurd (hx.trans_le (h.head_le e' he')) (not_lt.mpr (of_decide_eq_true hcov).1)

/-- A loop over entries in order that only does something at the one that contains the distance. -/
theorem EntriesInv.foldl_covers {R : Type} (g : RangeMapEntry T → R → R) (x : Distance) :
    ∀ {es : List (RangeMapEntry T)}, EntriesInv es → ∀ r : R,
    es.foldl (fun r e => if Covers e x then g e r else r) r = ((es.find? (Covers · x)).map (g · r)).getD r
  | [], _, _ => rfl
  | e :: es, h, r => by
    rw [foldl_cons, h.tail.foldl_covers g x]
    by_cases hcov : Covers e x
    · rw [find?_cons_of_pos (by simpa using hcov), if_pos hcov, h.find?_tail hcov.2]
      rfl
    · rw [find?_cons_of_neg (by simpa using hcov), if_neg hcov]

theorem EntriesInv.overlay_eq (h : EntriesInv es) (r : Option T)
    (x : Distance) : overlay r es x = (entryValue es x).or r := by
  rw [overlay, h.foldl_covers (fun e _ => some e.value) x, entryValue]
  cases es.find? (Covers · x) <;> rfl

/-! The value around the first entry. -/

theorem entryValue_cons (e : RangeMapEntry T) (es : List (RangeMapEntry T)) (x : Distance) :
    entryValue (e :: es) x = if Covers e x then some e.value else entryValue es x := by
  rw [entryValue, find?_cons]
  by_cases hcov : Covers e x
  · simp [hcov]
  · simp [hcov, entryValue]

theorem EntriesInv.entryValue_tail (h : EntriesInv (e :: es)) {x : Distance} (hx : x < e.upper) :
    entryValue es x = none := by
  rw [entryValue, h.find?_tail hx]
  rfl

theorem EntriesInv.entryValue_of_lt (h : EntriesInv (e :: es)) {x : Distance} (hx : x < e.upper) :
    entryValue (e :: es) x = if e.lower ≤ x then some e.value else none := by
  rw [entryValue_cons, h.entryValue_tail hx]
  exact if_congr (and_iff_left hx) rfl rfl

theorem entryValue_of_le {x : Distance} (hx : e.upper ≤ x) :
    entryValue (e :: es) x = entryValue es x := by
  rw [entryValue_cons, if_neg fun hcov => not_lt.mpr hx hcov.2]

theorem RepInv.valueOf_eq (h : m.RepInv) (x : Distance) :
    m.valueOf x = m.rangeValue x := by
  obtain ⟨es, hlist, -, hinv, hoverlay⟩ := h.entriesInv
  rw [valueOf, hlist, getD_some, ← hoverlay, hinv.overlay_eq, or_none]

theorem Yields.valueOf {r : Option (DistanceRangeMapImpl T)} {f : Distance → Option T} (h : Yields r f) :
    ∃ m', r = some m' ∧ ∀ x, m'.valueOf x = f x := by
  obtain ⟨m', hm', hinv, hval⟩ := h
  exact ⟨m', hm', fun x => (hinv.valueOf_eq x).trans (hval x)⟩

/-- Two entries of which neither is above the other are the same. -/
theorem EntriesInv.eq_of_not_le (h : EntriesInv es) (he : e ∈ es) (he' : e' ∈ es)
    (hle : ¬ e.upper ≤ e'.lower) (hle' : ¬ e'.upper ≤ e.lower) : e = e' := by
  obtain ⟨i, rfl⟩ := mem_iff_get.mp he
  obtain ⟨j, rfl⟩ := mem_iff_get.mp he'
  have hpairwise := pairwise_iff_get.mp h.pairwise
  rcases lt_trichotomy i j with hij | rfl | hij
  · exact absurd (hpairwise i j hij) hle
  · rfl
  · exact absurd (hpairwise j i hij) hle'

/-- The value found by a test that one entry at most passes. -/
theorem find?_value_iff {p : RangeMapEntry T → Bool}
    (huniq : ∀ e ∈ es, ∀ e' ∈ es, p e → p e' → e = e') {v : T} :
    (es.find? p).map (·.value) = some v ↔ ∃ e ∈ es, p e ∧ e.value = v := by
  rw [map_eq_some_iff]
  constructor
  · rintro ⟨e, he, rfl⟩
    exact ⟨e, mem_of_find?_eq_some he, find?_some he, rfl⟩
  · rintro ⟨e, he, hp, rfl⟩
    obtain ⟨e', he'⟩ : ∃ e', es.find? p = some e' := by
      rw [← isSome_iff_exists, find?_isSome]
      exact ⟨e, he, hp⟩
    exact ⟨e', he', huniq e' (mem_of_find?_eq_some he') e he (find?_some he') hp ▸ rfl⟩

theorem EntriesInv.entryValue_iff (h : EntriesInv es) {x : Distance} {v : T} :
    entryValue es x = some v ↔ ∃ e ∈ es, Covers e x ∧ e.value = v := by
  rw [entryValue, find?_value_iff]
  · simp only [decide_eq_true_eq]
  · intro e he e' he' hcov hcov'
    have hcov : Covers e x := by simpa using hcov
    have hcov' : Covers e' x := by simpa using hcov'
    exact h.eq_of_not_le he he' (hcov'.1.trans_lt hcov.2).not_ge (hcov.1.trans_lt hcov'.2).not_ge

/-- The value of the entry that ends at a distance. -/
theorem EntriesInv.find?_upper_iff (h : EntriesInv es) {x : Distance} {v : T} :
    (es.find? (·.upper = x)).map (·.value) = some v ↔ ∃ e ∈ es, e.upper = x ∧ e.value = v := by
  rw [find?_value_iff]
  · simp only [decide_eq_true_eq]
  · intro e he e' he' hend hend'
    have heq : e.upper = e'.upper := (of_decide_eq_true hend).trans (of_decide_eq_true hend').symm
    refine h.eq_of_not_le he he' (not_le.mpr ?_) (not_le.mpr ?_)
    · exact heq ▸ h.pos e' he'
    · exact heq ▸ h.pos e he

/-! ### `get` -/

theorem upper_mem_of_entriesOf : ∀ {ts : List (Distance × Option T)},
    e ∈ entriesOf ts → e.upper ∈ ts.map Prod.fst
  | (b, some v) :: (b', w) :: ts, h => by
    rcases mem_cons.mp h with rfl | h
    · exact mem_cons_of_mem _ mem_cons_self
    · exact mem_cons_of_mem _ (upper_mem_of_entriesOf h)
  | (_, none) :: ts, h => mem_cons_of_mem _ (upper_mem_of_entriesOf h)
  | [(_, some _)], h => by simp [entriesOf] at h

/-- The entry that ends at a bound has the value that holds before it. -/
theorem find?_upper_entriesOf {x : Distance} {v : Option T} {C : List (Distance × Option T)} :
    ∀ {A : List (Distance × Option T)}, StrictSorted (A ++ (x, v) :: C) → (∀ t ∈ A, t.1 < x) →
    ((entriesOf (A ++ (x, v) :: C)).find? (·.upper = x)).map (·.value) = lastVal none A
  | [], hs, _ => by
    have hnone : (entriesOf ((x, v) :: C)).find? (·.upper = x) = none := by
      refine find?_eq_none.mpr fun e he => ?_
      have hlt := entriesOf_lower_lt_upper hs he
      obtain ⟨t, ht, heq⟩ := mem_map.mp (lower_mem_of_entriesOf he)
      have hle : ∀ t ∈ (x, v) :: C, x ≤ t.1 :=
        forall_mem_cons.mpr ⟨le_rfl, fun t ht => ((pairwise_cons.mp hs).1 t ht).le⟩
      have hne : e.upper ≠ x := (((hle t ht).trans_eq heq).trans_lt hlt).ne'
      simpa using hne
    rw [nil_append, hnone]
    rfl
  | (b, none) :: A, hs, hA => by
    rw [cons_append, entriesOf, lastVal]
    exact find?_upper_entriesOf hs.tail (forall_mem_cons.mp hA).2
  | [(b, some w)], hs, _ => by
    rw [singleton_append, entriesOf, find?_cons_of_pos (by simp)]
    rfl
  | (b, some w) :: (b', w') :: A, hs, hA => by
    have hne : b' ≠ x := (hA (b', w') (by simp)).ne
    rw [cons_append, cons_append, entriesOf, find?_cons_of_neg (by simpa using hne), lastVal, lastVal]
    have ih := @find?_upper_entriesOf x v C ((b', w') :: A) hs.tail fun t ht =>
      hA t (mem_cons_of_mem _ ht)
    exact ih

/-- `get` is the value at the distance, or the value of the entry that ends there. -/
theorem RepInv.get_eq (h : m.RepInv) (x : Distance) :
    m.get x = some ((m.valueOf x).or (m.valueEndingAt x)) := by
  rcases h.empty_or_shape with rfl | ⟨lb, ub, ts, hsh⟩
  · rfl
  have hlist : m.toList = some (entriesOf ts) := by
    rw [toList, hsh.repr.iterate_eq none hsh.canonical.alternates, hsh.repr.forEachCalls_eq]
  have hstrict := hsh.canonical.sorted
  rw [h.valueOf_eq, hsh.rangeValue_eq, valueEndingAt, hlist, getD_some]
  obtain ⟨A, C, hA, hC, rfl | ⟨v, rfl⟩⟩ := hstrict.cut_eq x
  · -- between two bounds no entry ends
    have hnone : (entriesOf (A ++ C)).find? (·.upper = x) = none := by
      refine find?_eq_none.mpr fun e he hend => ?_
      obtain ⟨t, ht, heq⟩ := mem_map.mp (upper_mem_of_entriesOf he)
      have hne : ∀ t ∈ A ++ C, t.1 ≠ x :=
        forall_mem_append.mpr ⟨fun t ht => (hA t ht).ne, fun t ht => (hC t ht).ne'⟩
      exact hne t ht (heq.trans (of_decide_eq_true hend))
    rw [get_of_missing hsh.repr hA hC, eval_append_of_lt hC, eval_of_le fun t ht => (hA t ht).le,
      hnone, map_none, or_none]
  · have hfirst : A = [] → v ≠ none := by
      rintro rfl
      exact hsh.canonical.alternates.1
    rw [get_of_found hsh.repr hA hC hfirst, find?_upper_entriesOf hstrict hA,
      eval_append (fun t ht => (hA t ht).le), eval, if_neg (lt_irrefl x), eval_of_lt hC]

end DistanceRangeMapImpl

end Osrd.RangeMap
