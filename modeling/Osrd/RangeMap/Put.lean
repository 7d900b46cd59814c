import Osrd.RangeMap.Refine

/-! What `get`, `putOptional`, `put` and `truncate` do to the values of a map.

    Each branch of `putOptional` edits the transitions by cutting them at the two distances. The lemmas
    follow the branches: below, above and inside the bounds of the map, with `lower < upper`,
    `lower = upper` (where the branches inside and below the map write a whole range instead of
    nothing, see `spills`) and the two calls of `truncate` with `lower > upper`. -/

namespace Osrd.RangeMap

open Transitions List

namespace DistanceRangeMapImpl

variable {T : Type}

/-! ### `get` -/

variable {m : DistanceRangeMapImpl T}

theorem RepInv.repr (h : m.RepInv) (hne : m.bounds ≠ []) : m.Reads m.transitions := by
  rcases h.denotes.1 with ⟨rfl, -⟩ | hrepr
  · exact absurd rfl hne
  · exact hrepr

variable {A C : List (Distance × Option T)}

/-- `values[i]` where a range starts. -/
theorem Repr.valueAt_eq {b : Distance} {v : Option T} (h : m.Reads (A ++ (b, v) :: C))
    (hC : C ≠ []) : m.valueAt A.length = some v := by
  have hvals := h.values_eq
  have hlen : A.length < m.values.length := by
    have hl := congrArg length hvals
    have hpos := length_pos_iff.mpr hC
    simp at hl
    omega
  have hget : (m.values ++ [none])[A.length]? = some v := by rw [hvals]; simp
  rw [getElem?_append_left hlen] at hget
  simpa [valueAt] using hget

/-- Before a bound, the value of the range that ends there. -/
theorem Repr.valueAt_pred (h : m.Reads (A ++ C)) (hA : A ≠ []) (hC : C ≠ []) :
    m.valueAt ((A.length : ℤ) - 1) = some (lastVal none A) := by
  obtain ⟨A', ⟨b, v⟩, rfl⟩ := (eq_nil_or_concat A).resolve_left hA
  rw [concat_eq_append] at h ⊢
  rw [append_assoc] at h
  have := valueAt_eq h hC
  simpa using this

theorem get_of_missing {x : Distance} (h : m.Reads (A ++ C)) (hA : ∀ t ∈ A, t.1 < x)
    (hC : ∀ t ∈ C, x < t.1) : m.get x = some (lastVal none A) := by
  have hsearch : BinarySearch.binarySearch m.bounds (fun b => compare b x) =
      -((A.length : ℤ) + 1) := by
    have hb := h.bounds_eq
    rw [map_append] at hb
    rw [hb, BinarySearch.binarySearch_missing, length_map]
    · simpa [compare_lt_iff_lt] using hA
    · simpa [compare_gt_iff_gt] using hC
  have hlen : m.bounds.length = A.length + C.length := by rw [h.bounds_eq]; simp
  have hpos : 0 < m.bounds.length := by rw [h.length_eq]; omega
  have hlast : ¬ -((A.length : ℤ) + 1) = (m.bounds.length : ℤ) - 1 := by omega
  have hneg : ¬ 0 ≤ -((A.length : ℤ) + 1) := by omega
  simp only [get, hsearch, if_neg hlast, if_neg hneg]
  by_cases hA0 : A = []
  · subst hA0
    rfl
  · have hApos := length_pos_iff.mpr hA0
    by_cases hC0 : C = []
    · subst hC0
      rw [if_pos (.inr (by simp at hlen; omega))]
      rw [append_nil] at h
      rw [h.lastVal_eq]
    · have hCpos := length_pos_iff.mpr hC0
      rw [if_neg (by omega), ← h.valueAt_pred hA0 hC0]
      congr 1
      omega

/-- At a bound, the value that starts there, or the one that ends there. -/
theorem get_of_found {x : Distance} {v : Option T} (h : m.Reads (A ++ (x, v) :: C))
    (hA : ∀ t ∈ A, t.1 < x) (hC : ∀ t ∈ C, x < t.1) (hfirst : A = [] → v ≠ none) :
    m.get x = some (v.or (lastVal none A)) := by
  have hsearch : BinarySearch.binarySearch m.bounds (fun b => compare b x) = A.length := by
    have hb := h.bounds_eq
    rw [map_append, map_cons] at hb
    rw [hb, BinarySearch.binarySearch_found, length_map]
    · simpa [compare_lt_iff_lt] using hA
    · exact compare_eq_iff_eq.mpr rfl
    · simpa [compare_gt_iff_gt] using hC
  have hlen : m.bounds.length = A.length + C.length + 1 := by rw [h.bounds_eq]; simp; omega
  simp only [get, hsearch]
  by_cases hC0 : C = []
  · subst hC0
    rw [if_pos (by simp at hlen; omega)]
    have hv : v = none := by simpa using h.lastVal_eq none
    have hA0 : A ≠ [] := fun hA0 => hfirst hA0 hv
    obtain ⟨A', ⟨b, w⟩, rfl⟩ := (eq_nil_or_concat A).resolve_left hA0
    rw [concat_eq_append] at h ⊢
    have hvalues := h.values_eq
    rw [map_append, map_singleton, hv] at hvalues
    rw [append_cancel_right hvalues, hv, lastVal_concat, map_append, map_singleton, getLast?_concat]
    rfl
  · have hCpos := length_pos_iff.mpr hC0
    rw [if_neg (by omega), if_pos (by omega), h.valueAt_eq hC0]
    cases v with
    | some w => rfl
    | none =>
      by_cases hA0 : A = []
      · exact absurd rfl (hfirst hA0)
      · exact h.valueAt_pred hA0 (by simp)

/-- On a map with entries `get` throws nothing, and between two bounds it is the range's value. -/
theorem RepInv.get_spec (h : m.RepInv) (hne : m.bounds ≠ []) (x : Distance) :
    ∃ w, m.get x = some w ∧ (x ∉ m.bounds → w = m.rangeValue x) := by
  have hrepr := h.repr hne
  have hcan := h.denotes.2
  rw [rangeValue]
  generalize m.transitions = ts at hrepr hcan
  obtain ⟨A, C, hA, hC, rfl | ⟨v, rfl⟩⟩ := hcan.sorted.cut_eq x
  · refine ⟨_, get_of_missing hrepr hA hC, fun _ => ?_⟩
    rw [eval_append_of_lt hC, eval_of_le fun t ht => (hA t ht).le]
  · have hfirst : A = [] → v ≠ none := by
      rintro rfl
      exact hcan.alternates.1
    refine ⟨_, get_of_found hrepr hA hC hfirst, fun hn => absurd ?_ hn⟩
    rw [hrepr.bounds_eq]
    simp

/-! ### The two transition functions -/

theorem findIdx_cut {α : Type} {p : α → Bool} {A C : List α} (hA : ∀ a ∈ A, p a = false)
    (hC : ∀ c ∈ C, p c = true) : (A ++ C).findIdx p = A.length := by
  induction A with
  | nil =>
    cases C with
    | nil => rfl
    | cons c C => simp [findIdx_cons, hC c mem_cons_self]
  | cons a A ih =>
    rw [cons_append, findIdx_cons, hA a mem_cons_self, length_cons, ih (forall_mem_cons.mp hA).2]
    rfl

section Insert

variable {m : DistanceRangeMapImpl T} {A C : List (Distance × Option T)} {o b : Distance}

variable (h : m.Reads (A ++ C)) (hA : ∀ t ∈ A, t.1 < o) (hC : ∀ t ∈ C, o ≤ t.1)

include h hA hC in
theorem findIdx_bounds_lt : m.bounds.findIdx (fun b => ¬ b < o) = A.length := by
  rw [h.bounds_eq, map_append, findIdx_cut, length_map]
  · simpa using hA
  · simpa using hC

theorem putTransitionBefore_mid (h : m.Reads (A ++ C)) (hC0 : C ≠ [])
    (hA : ∀ t ∈ A, t.1 < o) (hC : ∀ t ∈ C, o ≤ t.1) (v : Option T) :
    (m.putTransitionBefore o v).Reads (A ++ (o, v) :: C) := by
  have hins := Repr.insert_mid hC0 o v h
  rwa [← findIdx_bounds_lt h hA hC] at hins

theorem putTransitionBefore_end (h : m.Reads (A ++ [(b, none)]))
    (hA : ∀ t ∈ A ++ [(b, none)], t.1 < o) (v : Option T) :
    (m.putTransitionBefore o v).Reads (A ++ [(b, v), (o, none)]) := by
  have hidx : m.bounds.findIdx (fun b => ¬ b < o) = A.length + 1 := by
    have h' := h
    rw [← append_nil (A ++ _)] at h'
    simpa using findIdx_bounds_lt h' hA (by simp)
  have hins := Repr.insert_end b o v h
  rwa [← hidx] at hins

include h hA hC in
/-- A transition to `null` is inserted at its place, also past the end of the map. -/
theorem putTransitionBefore_none : (m.putTransitionBefore o none).Reads (A ++ (o, none) :: C) := by
  by_cases hC0 : C = []
  · subst hC0
    rw [append_nil] at h
    obtain ⟨A', b, rfl⟩ := h.exists_concat
    simpa using putTransitionBefore_end h hA none
  · exact putTransitionBefore_mid h hC0 hA hC none

theorem putTransitionAfter_mid (h : m.Reads (A ++ C)) (hC0 : C ≠ [])
    (hA : ∀ t ∈ A, t.1 ≤ o) (hC : ∀ t ∈ C, o < t.1) (v : Option T) :
    (m.putTransitionAfter o v).Reads (A ++ (o, v) :: C) := by
  have hidx : m.bounds.findIdx (fun b => ¬ b ≤ o) = A.length := by
    rw [h.bounds_eq, map_append, findIdx_cut, length_map]
    · simpa using hA
    · simpa using hC
  have hins := Repr.insert_mid hC0 o v h
  rwa [← hidx] at hins

end Insert

/-! ### The shape of a map with entries -/

/-- A map with entries: its first and last bounds, and its transitions between them. -/
structure Shape (m : DistanceRangeMapImpl T) (lb ub : Distance)
    (ts : List (Distance × Option T)) : Prop where
  repr : Repr m.bounds m.values ts
  transitions_eq : m.transitions = ts
  canonical : Canonical none ts
  lower_eq : m.lowerBound = some lb
  upper_eq : m.upperBound = some ub
  lower_le : ∀ t ∈ ts, lb ≤ t.1
  le_upper : ∀ t ∈ ts, t.1 ≤ ub
  upper_mem : (ub, none) ∈ ts
  lower_mem : ∃ v, (lb, v) ∈ ts
  lower_lt_upper : lb < ub

theorem RepInv.empty_or_shape (h : m.RepInv) : m = empty ∨ ∃ lb ub ts, m.Shape lb ub ts := by
  rcases h.denotes.1 with ⟨rfl, -⟩ | hrepr
  · exact .inl rfl
  right
  have hcan := h.denotes.2
  generalize hts : m.transitions = ts at hrepr hcan
  obtain ⟨body, d, rfl⟩ := hrepr.exists_concat
  cases body with
  | nil => exact absurd rfl hcan.alternates.1
  | cons t body =>
    obtain ⟨b, v⟩ := t
    have hsorted := pairwise_cons.mp hcan.sorted
    have hlast := (pairwise_append.mp hcan.sorted).2.2
    refine ⟨b, d, _, hrepr, hts, hcan, ?_, ?_, ?_, ?_, by simp, ⟨v, by simp⟩, hsorted.1 (d, none) (by simp)⟩
    · simp [lowerBound, hrepr.bounds_eq]
    · rw [upperBound, hrepr.bounds_eq, map_append, map_singleton, getLast?_concat]
    · exact forall_mem_cons.mpr ⟨le_rfl, fun t ht => (hsorted.1 t ht).le⟩
    · exact forall_mem_append.mpr
        ⟨fun t ht => (hlast t ht (d, none) (by simp)).le, forall_mem_singleton.mpr le_rfl⟩

section Shape

variable {m : DistanceRangeMapImpl T} {lb ub x : Distance} {ts : List (Distance × Option T)}
  (h : m.Shape lb ub ts)

include h

theorem Shape.rangeValue_eq (x : Distance) : m.rangeValue x = eval none ts x := by
  rw [rangeValue, h.transitions_eq]

theorem Shape.repInv : m.RepInv := by
  have hden : m.Denotes ts := .inr h.repr
  exact hden.repInv h.canonical

theorem Shape.get_spec (x : Distance) :
    ∃ w, m.get x = some w ∧ ((∀ t ∈ ts, t.1 ≠ x) → w = eval none ts x) := by
  have hne : m.bounds ≠ [] := by
    intro hnil
    have hlow := h.lower_eq
    simp [lowerBound, hnil] at hlow
  obtain ⟨w, hw, hval⟩ := h.repInv.get_spec hne x
  refine ⟨w, hw, fun hfresh => ?_⟩
  rw [← h.rangeValue_eq]
  refine hval fun hmem => ?_
  rw [h.repr.bounds_eq, mem_map] at hmem
  obtain ⟨t, ht, rfl⟩ := hmem
  exact hfresh t ht rfl

theorem Shape.rangeValue_of_lt (hx : x < lb) : m.rangeValue x = none := by
  rw [h.rangeValue_eq, Transitions.eval_of_lt fun t ht => hx.trans_le (h.lower_le t ht)]

theorem Shape.eval_of_ge (hx : ub ≤ x) : eval none ts x = none := by
  rw [Transitions.eval_of_le fun t ht => (h.le_upper t ht).trans hx, h.repr.lastVal_eq]

theorem Shape.head_eq : ∃ v, ts.head? = some (lb, v) := by
  obtain ⟨⟨b, v⟩, C, rfl⟩ := exists_cons_of_ne_nil h.repr.ne_nil
  have hlow := h.lower_eq
  rw [lowerBound, h.repr.bounds_eq] at hlow
  obtain rfl : b = lb := by simpa using hlow
  exact ⟨v, rfl⟩

end Shape

/-! ### `putOptional`, branch by branch -/

/-- Not strictly inside the range being written. -/
abbrev outside (lower upper : Distance) (t : Distance × Option T) : Bool :=
  ¬ (lower < t.1 ∧ t.1 < upper)

theorem filter_outside_of_forall {lower upper : Distance} {us : List (Distance × Option T)}
    (h : ∀ t ∈ us, t.1 ≤ lower ∨ upper ≤ t.1) : us.filter (outside lower upper) = us := by
  refine filter_eq_self.mpr fun t ht => decide_eq_true fun hin => ?_
  rcases h t ht with h | h
  · exact not_lt.mpr h hin.1
  · exact not_lt.mpr h hin.2

section Branches

variable {m : DistanceRangeMapImpl T} {lb ub lower upper : Distance}
  {ts : List (Distance × Option T)} (h : m.Shape lb ub ts)

include h

/-- Above the map there is nothing to cut, except its last bound. -/
theorem Shape.cut_above (hub : ub ≤ lower) :
    ∃ A C, ts = A ++ C ∧ (∀ t ∈ A, t.1 < lower) ∧ (C = [] ∨ C = [(lower, none)]) := by
  obtain ⟨A, C, hA, hC, hts⟩ := h.canonical.sorted.cut_eq lower
  have hnil : C = [] := by
    refine eq_nil_iff_forall_not_mem.mpr fun t ht => not_le.mpr (hC t ht) ?_
    refine (h.le_upper t ?_).trans hub
    rcases hts with rfl | ⟨v, rfl⟩ <;> simp [ht]
  subst hnil
  rcases hts with rfl | ⟨v, rfl⟩
  · exact ⟨A, [], rfl, hA, .inl rfl⟩
  · have hlast := h.repr.lastVal_eq none
    rw [lastVal_concat] at hlast
    exact ⟨A, _, rfl, hA, .inr (by rw [hlast])⟩

theorem Shape.putNone_above (hub : ub ≤ lower) :
    (m.putTransitionBefore lower none).Reads (ts ++ [(lower, none)]) := by
  obtain ⟨A, C, rfl, hA, hC⟩ := h.cut_above hub
  have hput := putTransitionBefore_none h.repr hA (by rcases hC with rfl | rfl <;> simp)
  rcases hC with rfl | rfl
  · simpa using hput
  · simpa using hput

theorem Shape.sorted_putNone (hub : ub ≤ lower) : Sorted (ts ++ [(lower, none)]) :=
  Sorted.insert (by simpa using h.canonical.sorted.sorted)
    (fun t ht => (h.le_upper t ht).trans hub) (by simp) none

/-- Whatever the place of a range, the two transitions are put where they cut those of the map. -/
theorem Shape.insert_lt (hlu : lower < upper) (v w : Option T)
    (hw : (∀ t ∈ ts, t.1 ≠ upper) → w = eval none ts upper) :
    ∃ A B C w', ts = A ++ B ++ C ∧ (∀ t ∈ A, t.1 ≤ lower) ∧
      (∀ t ∈ B, lower < t.1 ∧ t.1 < upper) ∧ (∀ t ∈ C, upper ≤ t.1) ∧
      (w' = lastVal none (A ++ B) ∨ ∃ c ∈ C.head?, c.1 = upper) ∧
      (m.insertTransitions lb ub lower upper v w).Reads (A ++ (lower, v) :: B ++ (upper, w') :: C) := by
  rcases le_or_gt ub lower with hub | hub
  · have hA : ∀ t ∈ ts, t.1 ≤ lower := fun t ht => (h.le_upper t ht).trans hub
    refine ⟨ts, [], [], none, by simp, hA, by simp, by simp, .inl ?_, ?_⟩
    · rw [append_nil, h.repr.lastVal_eq]
    rw [insertTransitions, if_pos hub, append_assoc]
    refine putTransitionBefore_end (h.putNone_above hub) (forall_mem_append.mpr ⟨?_, ?_⟩) v
    · exact fun t ht => (hA t ht).trans_lt hlu
    · exact forall_mem_singleton.mpr hlu
  rcases le_or_gt upper lb with hlb | hlb
  · have hC : ∀ t ∈ ts, upper ≤ t.1 := fun t ht => hlb.trans (h.lower_le t ht)
    refine ⟨[], [], ts, none, rfl, by simp, by simp, hC, .inl rfl, ?_⟩
    rw [insertTransitions, if_neg hub.not_ge, if_pos hlb]
    have h1 := @putTransitionBefore_mid T m [] ts lower h.repr h.repr.ne_nil (by simp)
      (fun t ht => hlu.le.trans (hC t ht)) v
    exact @putTransitionBefore_none T _ [(lower, v)] ts upper h1 (by simpa using hlu) hC
  have hs := h.canonical.sorted.sorted
  obtain ⟨A, R, rfl, hA, hR⟩ := hs.cut_le lower
  obtain ⟨B, C, rfl, hB, hC⟩ := (show Sorted R from (pairwise_append.mp hs).2.1).cut_lt upper
  have hAB : ∀ t ∈ A ++ B, t.1 < upper := forall_mem_append.mpr ⟨fun t ht => (hA t ht).trans_lt hlu, hB⟩
  -- the value taken up again at `upper`
  have hw' : w = lastVal none (A ++ B) ∨ ∃ c ∈ C.head?, c.1 = upper := by
    rw [← append_assoc] at hw hs
    exact hs.resumed hAB hC hw
  refine ⟨A, B, C, w, by rw [append_assoc], hA,
    fun t ht => ⟨hR t (mem_append_left _ ht), hB t ht⟩, hC, hw', ?_⟩
  rw [insertTransitions, if_neg hub.not_ge, if_neg hlb.not_ge]
  have hR0 : B ++ C ≠ [] := by
    intro hnil
    have hmem := h.upper_mem
    rw [hnil, append_nil] at hmem
    exact absurd (hA _ hmem) hub.not_ge
  have h1 := putTransitionAfter_mid h.repr hR0 hA hR v
  have hlow : ∀ t ∈ A ++ (lower, v) :: B, t.1 < upper := forall_mem_append.mpr
      ⟨fun t ht => hAB t (mem_append_left _ ht), forall_mem_cons.mpr ⟨hlu, hB⟩⟩
  rw [← cons_append, ← append_assoc] at h1
  by_cases hC0 : C = []
  · -- past the last bound the old value is `null`
    subst hC0
    have hnone : w = none := by
      rcases hw' with rfl | ⟨c, hc, -⟩
      · have hlast := h.repr.lastVal_eq none
        rwa [append_nil] at hlast
      · simp at hc
    subst hnone
    exact putTransitionBefore_none h1 hlow hC
  · exact putTransitionBefore_mid h1 hC0 hlow hC w

end Branches

section PutOptional

variable [DecidableEq T] {m : DistanceRangeMapImpl T} {lb ub lower upper : Distance}
  {ts us : List (Distance × Option T)} {v w : Option T}

/-- After the two insertions, `putOptional` deletes what is inside the range and merges. -/
theorem Shape.putOptional_of_insert (h : m.Shape lb ub ts) (hget : m.get upper = some w)
    (hrepr : (m.insertTransitions lb ub lower upper v w).Reads us)
    (hs : Sorted us) (hlast : ∀ t ∈ us.getLast?, ¬ (lower < t.1 ∧ t.1 < upper)) :
    Yields (m.putOptional lower upper v) (eval none (us.filter (outside lower upper))) := by
  obtain ⟨r, hr, hrepr'⟩ := hrepr.deleteInside_eq hlast
  obtain ⟨m', hm', hinv, hval⟩ := @ensureInvariants_spec T _ ⟨r.1, r.2⟩ _ hrepr' (List.Pairwise.filter _ hs)
  refine ⟨m', ?_, hinv, hval⟩
  simp only [putOptional, h.lower_eq, h.upper_eq, hget, hr, Option.bind_eq_bind, Option.bind_some,
    Option.map_some]
  exact hm'

theorem putOptional_empty (hle : lower ≤ upper) (v : Option T) :
    Yields ((empty : DistanceRangeMapImpl T).putOptional lower upper v)
      fun x => if lower ≤ x ∧ x < upper then v else none := by
  have hrepr : Repr [lower, upper] [v] [(lower, v), (upper, none)] := (Repr.last upper).cons lower v
  have hs : Sorted [(lower, v), (upper, none)] := by simpa [Sorted] using hle
  obtain ⟨m', hm', hinv, hval⟩ := @ensureInvariants_spec T _ ⟨[lower, upper], [v]⟩ _ hrepr hs
  refine ⟨m', ?_, hinv, fun x => ?_⟩
  · simpa [putOptional, empty, lowerBound] using hm'
  · rw [hval]
    simp only [eval]
    by_cases h1 : x < lower
    · rw [if_pos h1, if_neg fun h => not_le.mpr h1 h.1]
    · rw [if_neg h1]
      by_cases h2 : x < upper
      · rw [if_pos h2, if_pos ⟨not_lt.mp h1, h2⟩]
      · rw [if_neg h2, if_neg fun h => h2 h.2]

/-- `lower < upper`: the range gets the value, everything else keeps its own. -/
theorem RepInv.putOptional_lt (h : m.RepInv) (hlu : lower < upper) (v : Option T) :
    Yields (m.putOptional lower upper v) fun x => if lower ≤ x ∧ x < upper then v else m.rangeValue x := by
  rcases h.empty_or_shape with rfl | ⟨lb, ub, ts, hsh⟩
  · exact putOptional_empty hlu.le v
  simp only [hsh.rangeValue_eq]
  obtain ⟨w, hget, hw⟩ := hsh.get_spec upper
  have hs := hsh.canonical.sorted.sorted
  obtain ⟨A, B, C, w', rfl, hA, hB, hC, hw', hrepr⟩ := hsh.insert_lt hlu v w hw
  have hfilter : (A ++ (lower, v) :: B ++ (upper, w') :: C).filter (outside lower upper) =
      A ++ (lower, v) :: (upper, w') :: C := by
    have hBnil : B.filter (outside lower upper) = [] := by
      refine filter_eq_nil_iff.mpr fun t ht => ?_
      simpa [outside] using hB t ht
    rw [filter_append, filter_append, filter_outside_of_forall fun t ht => .inl (hA t ht),
      filter_cons_of_pos (by simp [outside]), hBnil,
      filter_cons_of_pos (by simp [outside]),
      filter_outside_of_forall fun t ht => .inr (hC t ht)]
    simp
  have hABv : ∀ t ∈ A ++ (lower, v) :: B, t.1 ≤ upper :=
    forall_mem_append.mpr ⟨fun t ht => (hA t ht).trans hlu.le,
      forall_mem_cons.mpr ⟨hlu.le, fun t ht => (hB t ht).2.le⟩⟩
  have hBC : ∀ t ∈ B ++ C, lower ≤ t.1 :=
    forall_mem_append.mpr ⟨fun t ht => (hB t ht).1.le, fun t ht => hlu.le.trans (hC t ht)⟩
  have hsort : Sorted (A ++ (lower, v) :: B ++ (upper, w') :: C) := by
    rw [append_assoc] at hs
    refine Sorted.insert ?_ hABv hC w'
    simpa using Sorted.insert hs hA hBC v
  have hlast : ∀ t ∈ (A ++ (lower, v) :: B ++ (upper, w') :: C).getLast?,
      ¬ (lower < t.1 ∧ t.1 < upper) := by
    intro t ht hin
    rw [getLast?_append_of_ne_nil _ (by simp)] at ht
    rcases mem_cons.mp (mem_of_getLast? ht) with rfl | hmem
    · exact lt_irrefl _ hin.2
    · exact not_lt.mpr (hC t hmem) hin.2
  refine (hsh.putOptional_of_insert hget hrepr hsort hlast).congr fun x => ?_
  rw [hfilter]
  exact eval_overwrite hlu hA (fun t ht => ⟨(hB t ht).1.le, (hB t ht).2⟩) hC hw' x

/-! ### Ranges of no length, and ranges the wrong way round -/

variable (h : m.Shape lb ub ts) (hul : upper ≤ lower) (hget : m.get upper = some w)
  (hrepr : (m.insertTransitions lb ub lower upper v w).Reads us) (hs : Sorted us)

include h hul hget hrepr hs in
/-- With `upper ≤ lower` no bound lies strictly inside, so nothing is deleted. -/
theorem Shape.putOptional_of_insert_ge : Yields (m.putOptional lower upper v) (eval none us) := by
  have hspec := h.putOptional_of_insert hget hrepr hs fun t _ hin => not_lt.mpr hul (hin.1.trans hin.2)
  rwa [filter_outside_of_forall fun t _ => (le_total t.1 lower).imp_right (le_trans hul)] at hspec

include h hul hget hrepr hs in
/-- An insertion that leaves the value at every distance leaves the map as it was. -/
theorem Shape.putOptional_of_insert_same
    (hsame : ∀ x, eval none us x = eval none ts x) : m.putOptional lower upper v = some m := by
  refine ((h.putOptional_of_insert_ge hul hget hrepr hs).congr fun x => ?_).eq_some h.repInv
  rw [hsame, h.rangeValue_eq]

/-- Past the last bound, a point and a range the wrong way round without a value write nothing. -/
theorem Shape.putOptional_above_ge (h : m.Shape lb ub ts) (hub : ub ≤ upper) (hul : upper ≤ lower)
    (hv : upper = lower ∨ v = none) : m.putOptional lower upper v = some m := by
  obtain ⟨w, hget, -⟩ := h.get_spec upper
  have hnone := h.putNone_above (hub.trans hul)
  have hs := h.sorted_putNone (hub.trans hul)
  have hend : ∀ x, upper ≤ x → eval none ts x = none := fun x hx => h.eval_of_ge (hub.trans hx)
  obtain ⟨A, C, rfl, hA, hC⟩ := h.cut_above hub
  have hCl : ∀ t ∈ C ++ [(lower, (none : Option T))], upper ≤ t.1 := by
    rcases hC with rfl | rfl <;> simpa using hul
  rw [append_assoc] at hnone hs
  have hrepr :
      (m.insertTransitions lb ub lower upper v w).Reads (A ++ (upper, v) :: (C ++ [(lower, none)])) := by
    rw [insertTransitions, if_pos (hub.trans hul)]
    exact putTransitionBefore_mid hnone (by simp) hA hCl v
  have hsort := hs.insert (fun t ht => (hA t ht).le) hCl v
  refine h.putOptional_of_insert_same hul hget hrepr hsort fun x => ?_
  rcases lt_or_ge x upper with hx | hx
  · have hlt : ∀ t ∈ C ++ [(lower, (none : Option T))], x < t.1 := fun t ht => hx.trans_le (hCl t ht)
    rw [eval_append_of_lt (forall_mem_cons.mpr ⟨hx, hlt⟩),
      eval_append_of_lt fun t ht => hlt t (mem_append_left _ ht)]
  · rw [hend x hx, eval_append fun t ht => ((hA t ht).trans_le hx).le]
    rcases hv with rfl | rfl <;> rcases hC with rfl | rfl <;> simp [eval, hx.not_gt]

/-- Below the map, the transition at `upper` has no value of its own. -/
theorem Shape.putOptional_below_ge (h : m.Shape lb ub ts) (hlb : lower ≤ lb) (hul : upper ≤ lower)
    (v : Option T) : Yields (m.putOptional lower upper v) (eval none ((lower, v) :: ts)) := by
  obtain ⟨w, hget, -⟩ := h.get_spec upper
  have hts : ∀ t ∈ ts, lower ≤ t.1 := fun t ht => hlb.trans (h.lower_le t ht)
  have h1 := @putTransitionBefore_mid T m [] ts lower h.repr h.repr.ne_nil (by simp) hts v
  have hC : ∀ t ∈ (lower, v) :: ts, upper ≤ t.1 :=
    forall_mem_cons.mpr ⟨hul, fun t ht => hul.trans (hts t ht)⟩
  have hrepr : (m.insertTransitions lb ub lower upper v w).Reads ((upper, none) :: (lower, v) :: ts) := by
    rw [insertTransitions, if_neg (hlb.trans_lt h.lower_lt_upper).not_ge, if_pos (hul.trans hlb)]
    exact @putTransitionBefore_mid T _ [] _ upper h1 (by simp) (by simp) hC none
  have hsort : Sorted ([] ++ (lower, v) :: ts) :=
    Sorted.insert (by simpa using h.canonical.sorted.sorted) (by simp) hts v
  exact (h.putOptional_of_insert_ge hul hget hrepr
    (@Sorted.insert _ _ _ [] _ _ hsort (by simp) hC none)).congr
    (eval_cons_self hC)

/-- `truncate` before the start of the map: `beginOffset` not above the first bound. -/
theorem Shape.putOptional_wrong_below (h : m.Shape lb ub ts) (hlb : upper ≤ lb) :
    m.putOptional lb upper none = some m := by
  refine ((h.putOptional_below_ge le_rfl hlb none).congr fun x => ?_).eq_some h.repInv
  rw [eval_cons_self h.lower_le, h.rangeValue_eq]

/-- A point below the map gets the value up to the first bound. -/
theorem Shape.putOptional_point_below (h : m.Shape lb ub ts) (hlb : lower ≤ lb) (v : Option T) :
    Yields (m.putOptional lower lower v) fun x => if lower ≤ x ∧ x < lb then v else eval none ts x := by
  refine (h.putOptional_below_ge hlb le_rfl v).congr fun x => ?_
  obtain ⟨z, hz⟩ := h.head_eq
  obtain ⟨C, rfl⟩ := head?_eq_some_iff.mp hz
  exact @eval_insert _ _ _ [] [] C lower v none (lb, z) (by simp) (by simp) (fun _ _ => rfl)
    h.lower_le hlb x

/-- A point inside the map gets the value up to the next bound. -/
theorem Shape.putOptional_point_inside (h : m.Shape lb ub ts) (hlb : lb < lower)
    (hub : lower < ub) (v : Option T) : ∃ c, m.bounds.find? (lower < ·) = some c ∧
    Yields (m.putOptional lower lower v) fun x => if lower ≤ x ∧ x < c then v else eval none ts x := by
  obtain ⟨w, hget, -⟩ := h.get_spec lower
  have hs := h.canonical.sorted.sorted
  obtain ⟨A, C, rfl, hA, hC⟩ := hs.cut_le lower
  obtain ⟨A, B, rfl, hA', hB⟩ := (show Sorted A from (pairwise_append.mp hs).1).cut_lt lower
  have hC0 : C ≠ [] := by
    rintro rfl
    have hle : ub ≤ lower := hA (ub, none) (by simpa using h.upper_mem)
    exact not_lt.mpr hle hub
  obtain ⟨c, C, rfl⟩ := exists_cons_of_ne_nil hC0
  have hfind : m.bounds.find? (lower < ·) = some c.1 := by
    rw [h.repr.bounds_eq, map_append, find?_append, find?_eq_none.mpr]
    · simp [hC c mem_cons_self]
    · intro b hb
      obtain ⟨t, ht, rfl⟩ := mem_map.mp hb
      simpa using hA t ht
  have h1 := putTransitionAfter_mid h.repr hC0 hA hC v
  have hBC : ∀ t ∈ B ++ (lower, v) :: c :: C, lower ≤ t.1 := forall_mem_append.mpr
      ⟨hB, forall_mem_cons.mpr ⟨le_rfl, fun t ht => (hC t ht).le⟩⟩
  have hrepr : (m.insertTransitions lb ub lower lower v w).Reads
      (A ++ (lower, w) :: (B ++ (lower, v) :: c :: C)) := by
    rw [insertTransitions, if_neg hub.not_ge, if_neg hlb.not_ge]
    rw [append_assoc] at h1
    exact putTransitionBefore_mid h1 (by simp) hA' hBC w
  have hsort : Sorted (A ++ (lower, w) :: (B ++ (lower, v) :: c :: C)) := by
    have hs1 := hs.insert hA (fun t ht => (hC t ht).le) v
    rw [append_assoc] at hs1
    exact hs1.insert (fun t ht => (hA' t ht).le) hBC w
  refine ⟨c.1, hfind, (h.putOptional_of_insert_ge le_rfl hget hrepr hsort).congr fun x => ?_⟩
  have hAw : ∀ t ∈ A ++ (lower, w) :: B, t.1 ≤ lower := forall_mem_append.mpr ⟨fun t ht => (hA' t ht).le,
      forall_mem_cons.mpr ⟨le_rfl, fun t ht => hA t (mem_append_right _ ht)⟩⟩
  have hagree : ∀ y, y < lower → eval none (A ++ (lower, w) :: B) y = eval none (A ++ B) y := by
    intro y hy
    have hBy : ∀ t ∈ B, y < t.1 := fun t ht => hy.trans_le (hB t ht)
    rw [eval_append_of_lt (forall_mem_cons.mpr ⟨hy, hBy⟩), eval_append_of_lt hBy]
  have hcC : ∀ t ∈ c :: C, c.1 ≤ t.1 := forall_mem_cons.mpr
      ⟨le_rfl, (pairwise_cons.mp (pairwise_append.mp hs).2.1).1⟩
  have hev := @eval_insert _ _ _ _ _ _ _ v none _ hA hAw hagree hcC (hC c (by simp)).le x
  rw [← hev]
  simp

end PutOptional

end DistanceRangeMapImpl

end Osrd.RangeMap
