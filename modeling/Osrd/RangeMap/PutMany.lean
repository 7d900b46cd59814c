import Mathlib.Data.List.Induction
import Mathlib.Data.Prod.Lex
import Osrd.Lib.Partial
import Osrd.RangeMap.Ops

/-! `putMany`: the map is rebuilt by a sweep over the sorted bounds of the old and the new entries.

    An entry index is toggled in the queue at both of its bounds, so once every bound up to `x` has been
    seen the queue holds the entries that cover `x`, the latest first. The sweep therefore reads the
    transitions of "the latest entry covering `x`" (`overlay`), and grouping equal values makes them
    canonical. -/

open Transitions
open Prod (fst snd)

namespace Osrd.RangeMap

open List

namespace DistanceRangeMapImpl

variable {T : Type}

/-! ### The queue of open entries -/

theorem insertIdx_cut (A C : List ℕ) (i : ℕ) : (A ++ C).insertIdx A.length i = A ++ i :: C := by
  induction A with
  | nil => rfl
  | cons a A ih => rw [cons_append, length_cons, insertIdx_succ_cons, ih]; rfl

theorem queueToggle_missing {A C : List ℕ} {i : ℕ} (hA : ∀ j ∈ A, i < j) (hC : ∀ j ∈ C, j < i) :
    queueToggle (A ++ C) i = A ++ i :: C := by
  have hsearch : queueSearch (A ++ C) i = -((A.length : ℤ) + 1) :=
    BinarySearch.binarySearch_missing (by simpa [compare_lt_iff_lt] using hA)
      (by simpa [compare_gt_iff_gt] using hC)
  have hneg : ¬ 0 ≤ -((A.length : ℤ) + 1) := by omega
  have hidx : (-(-((A.length : ℤ) + 1)) - 1).toNat = A.length := by omega
  rw [queueToggle, queueContains, hsearch, if_neg (by simpa using hneg), queueAdd, hsearch]
  simp only [if_pos (not_le.mp hneg), hidx]
  exact insertIdx_cut A C i

theorem queueToggle_found {A C : List ℕ} {i : ℕ} (hA : ∀ j ∈ A, i < j) (hC : ∀ j ∈ C, j < i) :
    queueToggle (A ++ i :: C) i = A ++ C := by
  have hsearch : queueSearch (A ++ i :: C) i = A.length :=
    BinarySearch.binarySearch_found (by simpa [compare_lt_iff_lt] using hA)
      (compare_eq_iff_eq.mpr rfl) (by simpa [compare_gt_iff_gt] using hC)
  rw [queueToggle, queueContains, hsearch, if_pos (by simp), queueRemove, hsearch]
  simp only [Int.toNat_natCast]
  rw [eraseIdx_append_of_length_le le_rfl]
  simp

/-- One toggle: the queue stays decreasing and only `i` changes sides. -/
theorem queueToggle_spec {queue : List ℕ} (h : queue.Pairwise (· > ·)) (i : ℕ) :
    (queueToggle queue i).Pairwise (· > ·) ∧
      ∀ j, j ∈ queueToggle queue i ↔ if j = i then j ∉ queue else j ∈ queue := by
  -- the queue is increasing for the opposite order
  obtain ⟨A, C, hA, hC, hqueue⟩ := BinarySearch.exists_cut (OrderDual.toDual : ℕ → ℕᵒᵈ) i h
  have hiA : i ∉ A := fun hmem => lt_irrefl _ (hA i hmem)
  have hiC : i ∉ C := fun hmem => lt_irrefl _ (hC i hmem)
  rcases hqueue with rfl | ⟨j, hj, rfl⟩
  · rw [queueToggle_missing hA hC]
    obtain ⟨hpA, hpC, hAC⟩ := pairwise_append.mp h
    refine ⟨pairwise_append.mpr ⟨hpA, pairwise_cons.mpr ⟨hC, hpC⟩, fun a ha => ?_⟩, fun j => ?_⟩
    · exact forall_mem_cons.mpr ⟨hA a ha, hAC a ha⟩
    · split
      · next hj =>
        subst hj
        simp [hiA, hiC]
      · next hj => simp [hj]
  · obtain rfl : i = j := hj.symm
    rw [queueToggle_found hA hC]
    refine ⟨h.sublist ((List.Sublist.refl A).append (sublist_cons_self i C)), fun j => ?_⟩
    split
    · next hj =>
      subst hj
      simp [hiA, hiC]
    · next hj => simp [hj]

/-- Many toggles: an index changes sides when it is seen an odd number of times. -/
theorem foldl_queueToggle_spec : ∀ (indices : List ℕ) {queue : List ℕ},
    queue.Pairwise (· > ·) → (indices.foldl queueToggle queue).Pairwise (· > ·) ∧
      ∀ j, j ∈ indices.foldl queueToggle queue ↔ (j ∈ queue ↔ Even (indices.count j))
  | [], _, h => ⟨h, fun j => by simp⟩
  | i :: indices, queue, h => by
    obtain ⟨hsorted, hmem⟩ := queueToggle_spec h i
    obtain ⟨hsorted', hmem'⟩ := foldl_queueToggle_spec indices hsorted
    refine ⟨hsorted', fun j => ?_⟩
    rw [foldl_cons, hmem', hmem, count_cons]
    by_cases hj : j = i
    · subst hj
      simp only [if_true, beq_self_eq_true, Nat.even_add_one]
      tauto
    · simp [hj, Ne.symm hj]

/-! ### Grouping -/

section Grouping

variable {U V : Type}

theorem groupGo_filter [DecidableEq U] (p : U → Bool) : ∀ (pairs : List (U × V)) (k : U) (vs : List V),
    ((groupByConsecutiveFirst.go k vs pairs).filter (fun g => p g.1)).flatMap (·.2) =
      (if p k then vs else []) ++ (pairs.filter (fun t => p t.1)).map (·.2)
  | [], k, vs => by by_cases hk : p k <;> simp [groupByConsecutiveFirst.go, hk]
  | (k', v) :: pairs, k, vs => by
    rw [groupByConsecutiveFirst.go]
    by_cases hkey : k' = k
    · subst hkey
      rw [if_pos rfl, groupGo_filter p pairs]
      by_cases hk : p k' <;> simp [hk]
    · rw [if_neg hkey, filter_cons]
      by_cases hk : p k <;> by_cases hk' : p k' <;> simp [hk, hk', groupGo_filter p pairs]

/-- The groups whose key passes a test hold the values of the pairs whose key does. -/
theorem groupByConsecutiveFirst_filter [DecidableEq U] (p : U → Bool) : ∀ pairs : List (U × V),
    ((groupByConsecutiveFirst pairs).filter (fun g => p g.1)).flatMap (·.2) =
      (pairs.filter (fun t => p t.1)).map (·.2)
  | [] => rfl
  | (k, v) :: pairs => by
    rw [groupByConsecutiveFirst, groupGo_filter]
    by_cases hk : p k <;> simp [hk]

theorem groupGo_keys [DecidableEq U] {u : U} : ∀ {pairs : List (U × V)} {k : U} {vs : List V},
    u ∈ (groupByConsecutiveFirst.go k vs pairs).map fst ↔ u ∈ k :: pairs.map fst
  | [], k, vs => by simp [groupByConsecutiveFirst.go]
  | (k', v) :: pairs, k, vs => by
    rw [groupByConsecutiveFirst.go]
    split
    · next hkey => simp [groupGo_keys, hkey]
    · rw [map_cons, mem_cons, groupGo_keys]
      simp

theorem mem_groupKeys [DecidableEq U] {u : U} : ∀ {pairs : List (U × V)},
    u ∈ (groupByConsecutiveFirst pairs).map fst ↔ u ∈ pairs.map fst
  | [] => Iff.rfl
  | (_, _) :: _ => groupGo_keys

theorem groupGo_strictSorted [LinearOrder U] [DecidableEq U] :
    ∀ {pairs : List (U × V)} {k : U} {vs : List V},
    Sorted pairs → (∀ t ∈ pairs, k ≤ t.1) → StrictSorted (groupByConsecutiveFirst.go k vs pairs)
  | [], _, _, _, _ => pairwise_singleton _ _
  | (k', v) :: pairs, k, vs, hs, hk => by
    have hk' := (pairwise_cons.mp hs).1
    rw [groupByConsecutiveFirst.go]
    split
    · exact groupGo_strictSorted hs.tail (forall_mem_cons.mp hk).2
    · next hne =>
      refine pairwise_cons.mpr ⟨fun g hg => ?_, groupGo_strictSorted hs.tail hk'⟩
      have hlt : k < k' := lt_of_le_of_ne (hk _ mem_cons_self) (Ne.symm hne)
      rcases mem_cons.mp (groupGo_keys.mp (mem_map_of_mem hg)) with hg | hg
      · exact hg ▸ hlt
      · obtain ⟨t, ht, hgt⟩ := mem_map.mp hg
        exact hgt ▸ hlt.trans_le (hk' t ht)

theorem groupByConsecutiveFirst_strictSorted [LinearOrder U] [DecidableEq U] :
    ∀ {pairs : List (U × V)}, Sorted pairs → StrictSorted (groupByConsecutiveFirst pairs)
  | [], _ => .nil
  | (_, _) :: _, hs => groupGo_strictSorted hs.tail (pairwise_cons.mp hs).1

end Grouping

theorem foldl_min_eq {b : Distance} : ∀ {bs : List Distance}, (∀ b' ∈ bs, b ≤ b') → bs.foldl min b = b
  | [], _ => rfl
  | c :: bs, h => by
    rw [foldl_cons, min_eq_left (h c mem_cons_self)]
    exact foldl_min_eq (forall_mem_cons.mp h).2

/-- Grouping sorted transitions by value keeps the first bound of each group: repetitions go. -/
theorem groupGo_dropRep [DecidableEq T] : ∀ {ts : List (Distance × Option T)} {b : Distance}
    {bs : List Distance} {v : Option T}, Sorted ts → (∀ b' ∈ bs, b ≤ b') → (∀ t ∈ ts, b ≤ t.1) →
    (groupByConsecutiveFirst.go v (b :: bs) (ts.map Prod.swap)).map (fun g => (minBound g.2, g.1)) =
      ((b, v) :: dropRep v ts).map fun t => (some t.1, t.2)
  | [], b, bs, v, _, hbs, _ => by
    simp [groupByConsecutiveFirst.go, minBound, foldl_min_eq hbs, dropRep]
  | (c, w) :: ts, b, bs, v, hs, hbs, hts => by
    have hc := (pairwise_cons.mp hs).1
    rw [map_cons, Prod.swap_prod_mk, groupByConsecutiveFirst.go, dropRep]
    by_cases hw : w = v
    · subst hw
      have hbs' : ∀ b' ∈ bs ++ [c], b ≤ b' := forall_mem_append.mpr
        ⟨hbs, forall_mem_singleton.mpr (hts (c, w) mem_cons_self)⟩
      rw [if_pos rfl, if_pos rfl]
      exact groupGo_dropRep hs.tail hbs' (forall_mem_cons.mp hts).2
    · rw [if_neg hw, if_neg hw, map_cons, groupGo_dropRep hs.tail (by simp) hc]
      simp [minBound, foldl_min_eq hbs]

/-! ### The sweep -/

/-- The value `entryQueue.peek()` selects. -/
def peekValue (es : List (RangeMapEntry T)) (queue : List ℕ) : Option T :=
  queue.head?.bind fun bestIndex => es[bestIndex]?.map (·.value)

/-- The transitions of the sweep are the latest open entries. -/
theorem eval_sweep (es : List (RangeMapEntry T)) (x : Distance) :
    ∀ {groups : List (Distance × List ℕ)} {queue : List ℕ}, StrictSorted groups →
      eval (peekValue es queue) (sweep es queue groups) x =
        peekValue es (((groups.filter (·.1 ≤ x)).flatMap (·.2)).foldl queueToggle queue)
  | [], _, _ => rfl
  | (b, indices) :: groups, queue, hs => by
    have hb := (pairwise_cons.mp hs).1
    rw [sweep, eval]
    split
    · next hx =>
      have hnil : ((b, indices) :: groups).filter (·.1 ≤ x) = [] := by
        refine filter_eq_nil_iff.mpr (forall_mem_cons.mpr ⟨by simpa using hx, ?_⟩)
        exact fun g hg => by simpa using hx.trans (hb g hg)
      rw [hnil]
      rfl
    · next hx =>
      rw [filter_cons_of_pos (by simpa using hx), flatMap_cons, foldl_append]
      exact eval_sweep es x hs.tail

theorem sweep_keys (es : List (RangeMapEntry T)) : ∀ (groups : List (Distance × List ℕ))
    (queue : List ℕ), (sweep es queue groups).map fst = groups.map fst
  | [], _ => rfl
  | (b, indices) :: groups, queue => by
    rw [sweep, map_cons, sweep_keys es groups, map_cons]

/-- How often the bounds up to `x` mention the entry's index. -/
def boundsUpTo (x : Distance) (e : RangeMapEntry T) : ℕ :=
  (if e.lower ≤ x then 1 else 0) + if e.upper ≤ x then 1 else 0

/-- The indices of the bounds up to `x`. -/
def seenIndices (x : Distance) (bounds : List (Distance × ℕ)) : List ℕ :=
  (bounds.filter (·.1 ≤ x)).map (·.2)

theorem count_seenIndices (x : Distance) (j : ℕ) : ∀ (es : List (RangeMapEntry T)) (k : ℕ),
    (seenIndices x ((es.zipIdx k).flatMap fun p => [(p.1.lower, p.2), (p.1.upper, p.2)])).count j =
      if k ≤ j then (es[j - k]?.map (boundsUpTo x)).getD 0 else 0
  | [], k => by simp [seenIndices]
  | e :: es, k => by
    have ih := count_seenIndices x j es (k + 1)
    have hhead : (seenIndices x [(e.lower, k), (e.upper, k)]).count j =
        if k = j then boundsUpTo x e else 0 := by
      by_cases hl : e.lower ≤ x <;> by_cases hu : e.upper ≤ x <;> by_cases hkj : k = j <;>
        simp [seenIndices, boundsUpTo, hl, hu, hkj]
    have hsplit : ∀ as bs : List (Distance × ℕ), (seenIndices x (as ++ bs)).count j =
        (seenIndices x as).count j + (seenIndices x bs).count j := by
      intro as bs
      simp [seenIndices]
    rw [zipIdx_cons, flatMap_cons, hsplit, hhead, ih]
    rcases lt_trichotomy k j with hkj | rfl | hkj
    · have hsub : j - k = j - (k + 1) + 1 := by omega
      rw [if_neg hkj.ne, if_pos (by omega), if_pos hkj.le, hsub, getElem?_cons_succ, zero_add]
    · simp
    · rw [if_neg hkj.ne', if_neg (by omega), if_neg (by omega)]

variable {x : Distance} {e : RangeMapEntry T}

theorem odd_boundsUpTo (h : e.lower < e.upper) : ¬ Even (boundsUpTo x e) ↔ Covers e x := by
  rw [boundsUpTo, Covers]
  rcases lt_or_ge x e.lower with hl | hl
  · have hu := hl.trans h
    simp [hl.not_ge, hu.not_ge]
  · rcases lt_or_ge x e.upper with hu | hu
    · simp [hl, hu, hu.not_ge]
    · simp [hl, hu]

variable {es : List (RangeMapEntry T)}

variable (hes : ∀ e ∈ es, e.lower < e.upper)

include hes in
/-- Once the bounds up to `x` are seen, in any order, the queue holds the entries that cover `x`. -/
theorem mem_queue_iff {bounds : List (Distance × ℕ)}
    (hperm : bounds.Perm (boundEntries es)) (x : Distance) (j : ℕ) :
    j ∈ (seenIndices x bounds).foldl queueToggle [] ↔ ∃ e, es[j]? = some e ∧ Covers e x := by
  have hcount : (seenIndices x bounds).count j = (es[j]?.map (boundsUpTo x)).getD 0 := by
    have hseen : (seenIndices x bounds).Perm (seenIndices x (boundEntries es)) := (hperm.filter _).map _
    rw [hseen.count_eq, boundEntries, count_seenIndices, if_pos (Nat.zero_le j), Nat.sub_zero]
  rw [(foldl_queueToggle_spec _ .nil).2, hcount]
  cases hj : es[j]? with
  | none => simp
  | some e =>
    have hlt := hes e (mem_of_getElem? hj)
    simp only [not_mem_nil, false_iff, Option.map_some, Option.getD_some, Option.some.injEq,
      odd_boundsUpTo hlt, exists_eq_left']

/-- The head of the decreasing queue is the latest entry that covers `x`. -/
theorem peekValue_eq_overlay (es : List (RangeMapEntry T)) {queue : List ℕ}
    (hsorted : queue.Pairwise (· > ·)) (hmem : ∀ j, j ∈ queue ↔ ∃ e, es[j]? = some e ∧ Covers e x) :
    peekValue es queue = overlay none es x := by
  cases queue with
  | nil =>
    refine (overlay_of_not_covers fun e he hcov => ?_).symm
    obtain ⟨j, hj⟩ := getElem?_of_mem he
    exact not_mem_nil ((hmem j).mpr ⟨e, hj, hcov⟩)
  | cons j queue =>
    obtain ⟨e, hj, hcov⟩ := (hmem j).mp mem_cons_self
    -- an entry behind that is open would have its index before in the queue
    have hafter : ∀ e' ∈ es.drop (j + 1), ¬ Covers e' x := by
      intro e' he' hcov'
      obtain ⟨k, hk⟩ := getElem?_of_mem he'
      rw [getElem?_drop] at hk
      rcases mem_cons.mp ((hmem _).mpr ⟨e', hk, hcov'⟩) with heq | hqueue
      · omega
      · have := (pairwise_cons.mp hsorted).1 _ hqueue
        omega
    obtain ⟨hlt, rfl⟩ := List.getElem?_eq_some_iff.mp hj
    have hsplit : es = es.take j ++ es[j] :: es.drop (j + 1) := by simp
    conv_rhs => rw [hsplit, overlay_append, overlay_cons, if_pos hcov, overlay_of_not_covers hafter]
    simp [peekValue, hj]

/-! ### The rebuilt map -/

theorem Covers.overlay_isSome (hcov : Covers e x) : ∀ {es : List (RangeMapEntry T)} {r : Option T},
    r.isSome ∨ e ∈ es → (overlay r es x).isSome
  | [], _, h => h.resolve_right not_mem_nil
  | e' :: es, r, h => by
    rw [overlay_cons]
    refine hcov.overlay_isSome ?_
    by_cases hcov' : Covers e' x
    · exact .inl (by rw [if_pos hcov']; rfl)
    · rw [if_neg hcov']
      exact h.imp_right fun he => (mem_cons.mp he).resolve_left (by rintro rfl; exact hcov' hcov)

theorem overlay_filter : ∀ (es : List (RangeMapEntry T)) (r : Option T),
    overlay r (es.filter fun e => e.lower < e.upper) x = overlay r es x
  | [], _ => rfl
  | e :: es, r => by
    by_cases he : e.lower < e.upper
    · rw [filter_cons_of_pos (by simpa using he), overlay_cons, overlay_cons, overlay_filter es]
    · have hcov : ¬ Covers e x := fun hcov => he (hcov.1.trans_lt hcov.2)
      rw [filter_cons_of_neg (by simpa using he), overlay_cons, if_neg hcov, overlay_filter es]

theorem boundEntryLe_iff {a b : Distance × ℕ} : boundEntryLe a b ↔ toLex a ≤ toLex b :=
  Prod.Lex.toLex_le_toLex.symm

instance : Std.Total boundEntryLe where
  total a b := (le_total (toLex a) (toLex b)).imp boundEntryLe_iff.mpr boundEntryLe_iff.mpr

instance : IsTrans (Distance × ℕ) boundEntryLe where
  trans _ _ _ hab hbc := boundEntryLe_iff.mpr
    ((boundEntryLe_iff.mp hab).trans (boundEntryLe_iff.mp hbc))

/-- The bounds in the order the sweep sees them. -/
def sortedBounds (es : List (RangeMapEntry T)) : List (Distance × ℕ) :=
  (boundEntries es).insertionSort boundEntryLe

theorem sorted_sortedBounds (es : List (RangeMapEntry T)) : Sorted (sortedBounds es) :=
  (pairwise_insertionSort boundEntryLe _).imp fun h => h.elim le_of_lt fun h => h.1.le

theorem mem_sortedBounds {b : Distance} :
    b ∈ (sortedBounds es).map fst ↔ ∃ e ∈ es, b = e.lower ∨ b = e.upper := by
  have hperm : ((sortedBounds es).map fst).Perm ((boundEntries es).map fst) :=
    (perm_insertionSort boundEntryLe _).map _
  rw [hperm.mem_iff, mem_map]
  constructor
  · rintro ⟨t, ht, rfl⟩
    obtain ⟨⟨e, i⟩, hp, ht⟩ := mem_flatMap.mp ht
    refine ⟨e, (mem_zipIdx' hp).2 ▸ getElem_mem _, ?_⟩
    rcases mem_pair.mp ht with rfl | rfl
    · exact .inl rfl
    · exact .inr rfl
  · rintro ⟨e, he, hb⟩
    obtain ⟨i, hi, rfl⟩ := getElem_of_mem he
    have hmem : (es[i], i) ∈ es.zipIdx := by
      rw [mem_zipIdx_iff_getElem?]
      exact getElem?_eq_getElem hi
    rcases hb with rfl | rfl
    · exact ⟨(es[i].lower, i), mem_flatMap.mpr ⟨_, hmem, by simp⟩, rfl⟩
    · exact ⟨(es[i].upper, i), mem_flatMap.mpr ⟨_, hmem, by simp⟩, rfl⟩

/-- `nonEmptyBoundValues`: the transitions the sweep reads. -/
def boundValues (es : List (RangeMapEntry T)) : List (Distance × Option T) :=
  sweep es [] (groupByConsecutiveFirst (sortedBounds es))

theorem mem_boundValues {b : Distance} :
    b ∈ (boundValues es).map fst ↔ ∃ e ∈ es, b = e.lower ∨ b = e.upper := by
  rw [boundValues, sweep_keys, mem_groupKeys, mem_sortedBounds]

theorem strictSorted_boundValues (es : List (RangeMapEntry T)) : StrictSorted (boundValues es) := by
  have hgroups := groupByConsecutiveFirst_strictSorted (sorted_sortedBounds es)
  have hkeys := sweep_keys es (groupByConsecutiveFirst (sortedBounds es)) []
  rw [StrictSorted, ← pairwise_map (f := fst) (R := (· < ·))] at hgroups ⊢
  rwa [boundValues, hkeys]

include hes in
theorem eval_boundValues (x : Distance) : eval none (boundValues es) x = overlay none es x := by
  have hsweep := @eval_sweep T es x _ [] (groupByConsecutiveFirst_strictSorted (sorted_sortedBounds es))
  have hseen := groupByConsecutiveFirst_filter (fun b => decide (b ≤ x)) (sortedBounds es)
  rw [hseen] at hsweep
  refine hsweep.trans (peekValue_eq_overlay es ?_ fun j => ?_)
  · exact (foldl_queueToggle_spec _ .nil).1
  · exact mem_queue_iff hes (perm_insertionSort boundEntryLe _) x j

include hes in
/-- Past every bound no entry is open. -/
theorem lastVal_boundValues : lastVal none (boundValues es) = none := by
  rcases eq_nil_or_concat (boundValues es) with hnil | ⟨ts, t, hconcat⟩
  · rw [hnil]
    rfl
  rw [concat_eq_append] at hconcat
  have hle : ∀ s ∈ boundValues es, s.1 ≤ t.1 := by
    intro s hs
    have hsorted := strictSorted_boundValues es
    rw [hconcat] at hs hsorted
    rcases mem_append.mp hs with hs | hs
    · exact ((pairwise_append.mp hsorted).2.2 s hs t (by simp)).le
    · exact mem_singleton.mp hs ▸ le_rfl
  rw [← eval_of_le hle, eval_boundValues hes]
  refine overlay_of_not_covers fun e he hcov => ?_
  obtain ⟨s, hs, hseq⟩ := mem_map.mp (mem_boundValues.mpr ⟨e, he, .inr rfl⟩)
  exact not_lt.mpr (hseq ▸ hle s hs) hcov.2

include hes in
/-- The first bound is the lower bound of an entry, which is then open. -/
theorem boundValues_head {t : Distance × Option T}
    {ts : List (Distance × Option T)} (h : boundValues es = t :: ts) : t.2 ≠ none := by
  have hsorted := strictSorted_boundValues es
  have hle : ∀ e ∈ es, t.1 ≤ e.lower := by
    intro e he
    obtain ⟨s, hs, hseq⟩ := mem_map.mp (mem_boundValues.mpr ⟨e, he, .inl rfl⟩)
    rw [h] at hs hsorted
    rcases mem_cons.mp hs with rfl | hs
    · exact hseq.le
    · exact hseq ▸ ((pairwise_cons.mp hsorted).1 s hs).le
  have ht : t.1 ∈ (boundValues es).map fst := by simp [h]
  obtain ⟨e, he, hte⟩ := mem_boundValues.mp ht
  have hlow : t.1 = e.lower := by
    refine hte.resolve_right fun hup => ?_
    exact not_lt.mpr (hle e he) (hup ▸ hes e he)
  have hcov : Covers e t.1 := ⟨hlow.ge, hlow ▸ hes e he⟩
  have hval : eval none (boundValues es) t.1 = t.2 := by
    rw [h] at hsorted ⊢
    exact eval_head hsorted
  rw [← hval, eval_boundValues hes]
  exact Option.isSome_iff_ne_none.mp (hcov.overlay_isSome (.inr he))

/-- Transitions that end with no value are the two lists of a map. -/
theorem Repr.of_lastVal : ∀ {ts : List (Distance × Option T)} {prev : Option T}, ts ≠ [] →
    lastVal prev ts = none → Repr (ts.map fst) (ts.map snd).dropLast ts
  | [(b, v)], _, _, h => by
    obtain rfl : v = none := h
    exact .last b
  | (b, v) :: t :: ts, _, _, h => by
    have htail := @Repr.of_lastVal (t :: ts) v (by simp) h
    exact htail.cons b v

section PutMany

variable [DecidableEq T]

include hes in
/-- Grouping the bound values by value drops their repetitions. -/
theorem groupBySecond_boundValues :
    (groupByConsecutiveSecond (boundValues es)).map (fun g => (minBound g.2, g.1)) =
      (dropRep none (boundValues es)).map fun t => (some t.1, t.2) := by
  have hsorted := (strictSorted_boundValues es).sorted
  cases h : boundValues es with
  | nil => rfl
  | cons t ts =>
    obtain ⟨b, v⟩ := t
    have hv : v ≠ none := boundValues_head hes h
    rw [h] at hsorted
    rw [dropRep, if_neg hv]
    exact groupGo_dropRep hsorted.tail (by simp) (pairwise_cons.mp hsorted).1

/-- `putMany` throws nothing, keeps the invariant and lays its entries over the map, in order. -/
theorem RepInv.putMany_spec {m : DistanceRangeMapImpl T} (h : m.RepInv) (entries : List (RangeMapEntry T)) :
    Yields (m.putMany entries) fun x => overlay (m.rangeValue x) entries x := by
  obtain ⟨this, hthis, -, hlt, hval⟩ := h.entries_spec
  let es := this ++ entries.filter fun e => e.lower < e.upper
  let ts := dropRep none (boundValues es)
  have hes : ∀ e ∈ es, e.lower < e.upper := forall_mem_append.mpr
    ⟨hlt, fun e he => of_decide_eq_true (mem_filter.mp he).2⟩
  have hgroups := groupBySecond_boundValues hes
  have hfst : (groupByConsecutiveSecond (boundValues es)).map (fun g => minBound g.2) =
      (ts.map fst).map some := by
    simpa [Function.comp_def] using congrArg (map fst) hgroups
  have hsnd : (groupByConsecutiveSecond (boundValues es)).map (fun g => g.1) = ts.map snd := by
    simpa [Function.comp_def] using congrArg (map snd) hgroups
  have hden : Denotes ⟨ts.map fst, (ts.map snd).dropLast⟩ ts := by
    rcases eq_or_ne ts [] with hnil | hne
    · rw [hnil]
      exact .inl ⟨rfl, rfl⟩
    · exact .inr (Repr.of_lastVal hne ((lastVal_dropRep none _).trans (lastVal_boundValues hes)))
  have hstrict := strictSorted_boundValues es
  refine (hden.repInv (dropRep_canonical none hstrict)).yields ?_ fun x => ?_
  · have hbounds := Partial.mapM_eq_some_iff.mpr hfst
    rw [← hsnd]
    simp only [putMany, hthis]
    exact congrArg (fun o => Option.bind o _) hbounds
  · rw [hden.rangeValue_eq, eval_dropRep none hstrict.sorted, eval_boundValues hes, overlay_append,
      hval, overlay_filter]

/-! ### Against one `put` for each entry -/

variable (m : DistanceRangeMapImpl T)

/-- `put` on each entry, in list order. -/
def puts (entries : List (RangeMapEntry T)) : Option (DistanceRangeMapImpl T) :=
  entries.foldlM (fun m e => m.put e.lower e.upper e.value) m

/-- One of the successive calls writes the value at `x`. -/
def WrittenBy : DistanceRangeMapImpl T → List (RangeMapEntry T) → Distance → Prop
  | _, [], _ => False
  | m, e :: es, x => m.writes e.lower e.upper x ∨
      ∃ m', m.put e.lower e.upper e.value = some m' ∧ WrittenBy m' es x

/-- Wherever a point spills its value, a later entry writes again, or the map and the non-empty
    entries before the point already gave that value. -/
def SpillsHidden (entries : List (RangeMapEntry T)) : Prop :=
  ∀ pre e post m₁ m₂, entries = pre ++ e :: post → e.lower = e.upper →
    m.puts pre = some m₁ → m₁.put e.lower e.upper e.value = some m₂ →
    ∀ x, m₁.writes e.lower e.upper x → ¬ m₂.WrittenBy post x →
      overlay (m.rangeValue x) pre x = some e.value

theorem puts_cons (e : RangeMapEntry T) (es : List (RangeMapEntry T)) :
    m.puts (e :: es) = (m.put e.lower e.upper e.value).bind fun m' => m'.puts es := by
  rfl

section Puts

variable {m : DistanceRangeMapImpl T} {es : List (RangeMapEntry T)}

/-- Successive calls throw nothing, and change nothing where none of them writes. -/
theorem RepInv.puts_spec : ∀ {es : List (RangeMapEntry T)} {m : DistanceRangeMapImpl T}, m.RepInv →
    (∀ e ∈ es, e.lower ≤ e.upper) → ∃ m', m.puts es = some m' ∧ m'.RepInv ∧
      ∀ x, ¬ m.WrittenBy es x → m'.rangeValue x = m.rangeValue x
  | [], m, h, _ => ⟨m, rfl, h, fun _ _ => rfl⟩
  | e :: es, m, h, hle => by
    obtain ⟨m₁, hm₁, hinv₁, hval₁⟩ := (h.put_spec (hle e mem_cons_self) e.value).exists
    obtain ⟨m', hm', hinv, hval⟩ := hinv₁.puts_spec (forall_mem_cons.mp hle).2
    refine ⟨m', by rw [puts_cons, hm₁, Option.bind_some, hm'], hinv, fun x hx => ?_⟩
    rw [hval x fun hw => hx (.inr ⟨m₁, hm₁, hw⟩), hval₁, if_neg fun hw => hx (.inl hw)]

/-- A distance that is written has a last entry that writes it. -/
theorem RepInv.last_writer : ∀ {es : List (RangeMapEntry T)} {m : DistanceRangeMapImpl T},
    m.RepInv → (∀ e ∈ es, e.lower ≤ e.upper) → ∀ {x}, m.WrittenBy es x →
    ∃ pre e post m₁ m₂, es = pre ++ e :: post ∧ m.puts pre = some m₁ ∧
      m₁.put e.lower e.upper e.value = some m₂ ∧ m₁.writes e.lower e.upper x ∧ ¬ m₂.WrittenBy post x
  | e :: es, m, h, hle, x, hw => by
    obtain ⟨m₁, hm₁, hinv₁, -⟩ := h.put_spec (hle e mem_cons_self) e.value
    by_cases hlater : m₁.WrittenBy es x
    · obtain ⟨pre, e', post, m₂, m₃, rfl, hpre, hput, hwrites, hnone⟩ :=
        hinv₁.last_writer (forall_mem_cons.mp hle).2 hlater
      exact ⟨e :: pre, e', post, m₂, m₃, rfl, by rw [puts_cons, hm₁, Option.bind_some, hpre], hput,
        hwrites, hnone⟩
    · refine ⟨[], e, es, m, m₁, rfl, rfl, hm₁, hw.resolve_right ?_, hlater⟩
      rintro ⟨m₂, hm₂, hw₂⟩
      obtain rfl : m₁ = m₂ := Option.some.inj (hm₁.symm.trans hm₂)
      exact hlater hw₂

theorem puts_append (m : DistanceRangeMapImpl T) (es fs : List (RangeMapEntry T)) :
    m.puts (es ++ fs) = (m.puts es).bind fun m' => m'.puts fs := by
  rw [puts, foldlM_append]
  rfl

/-- Where no call writes, no entry covers. -/
theorem RepInv.not_covers : ∀ {es : List (RangeMapEntry T)} {m : DistanceRangeMapImpl T},
    m.RepInv → (∀ e ∈ es, e.lower ≤ e.upper) → ∀ {x}, ¬ m.WrittenBy es x → ∀ e ∈ es, ¬ Covers e x
  | e :: es, m, h, hle, x, hx, e', he' => by
    obtain ⟨m₁, hm₁, hinv₁, -⟩ := h.put_spec (hle e mem_cons_self) e.value
    rcases mem_cons.mp he' with rfl | he'
    · exact fun hcov => hx (.inl ((writes_of_lt (hcov.1.trans_lt hcov.2)).mpr hcov))
    · exact hinv₁.not_covers (forall_mem_cons.mp hle).2
        (fun hw => hx (.inr ⟨m₁, hm₁, hw⟩)) e' he'

/-- What the last writer of `x` makes of the two results there. -/
theorem RepInv.values_of_last_writer {pre post : List (RangeMapEntry T)} {m₁ m₂ m' : DistanceRangeMapImpl T}
    (h : m.RepInv) (hle : ∀ e' ∈ pre ++ e :: post, e'.lower ≤ e'.upper) (hpre : m.puts pre = some m₁)
    (hput : m₁.put e.lower e.upper e.value = some m₂) (hw : m₁.writes e.lower e.upper x)
    (hlater : ¬ m₂.WrittenBy post x) (hm' : m.puts (pre ++ e :: post) = some m') :
    m'.rangeValue x = some e.value ∧ overlay (m.rangeValue x) (pre ++ e :: post) x =
      if e.lower < e.upper then some e.value else overlay (m.rangeValue x) pre x := by
  have hlePost : ∀ e' ∈ post, e'.lower ≤ e'.upper := fun e' he' => hle e' (by simp [he'])
  have hlePre : ∀ e' ∈ pre, e'.lower ≤ e'.upper := fun e' he' => hle e' (by simp [he'])
  obtain ⟨m₁', hm₁', hinv₁, -⟩ := h.puts_spec hlePre
  obtain rfl : m₁ = m₁' := Option.some.inj (hpre.symm.trans hm₁')
  obtain ⟨m₂', hm₂', hinv₂, hval₂⟩ := (hinv₁.put_spec (hle e (by simp)) e.value).exists
  obtain rfl : m₂ = m₂' := Option.some.inj (hput.symm.trans hm₂')
  obtain ⟨m₃, hm₃, -, hval₃⟩ := hinv₂.puts_spec hlePost
  obtain rfl : m' = m₃ := by
    rw [puts_append, hpre, Option.bind_some, puts_cons, hput, Option.bind_some, hm₃] at hm'
    exact (Option.some.inj hm').symm
  refine ⟨by rw [hval₃ x hlater, hval₂, if_pos hw], ?_⟩
  rw [overlay_append, overlay_cons, overlay_of_not_covers (hinv₂.not_covers hlePost hlater)]
  by_cases hlt : e.lower < e.upper
  · have hcov : Covers e x := (writes_of_lt hlt).mp hw
    rw [if_pos hlt, if_pos hcov]
  · rw [if_neg hlt, if_neg fun hcov => hlt (hcov.1.trans_lt hcov.2)]

/-- `putMany` and successive `put` calls build the same map exactly when no spill of a point
    stays visible. -/
theorem putMany_eq_puts_iff (m : DistanceRangeMapImpl T) (h : m.RepInv)
    (entries : List (RangeMapEntry T)) (hle : ∀ e ∈ entries, e.lower ≤ e.upper) :
    m.putMany entries = m.puts entries ↔ m.SpillsHidden entries := by
  obtain ⟨mp, hmp, hinvp, hvalp⟩ := (h.putMany_spec entries).exists
  obtain ⟨ms, hms, hinvs, hvals⟩ := h.puts_spec hle
  rw [hmp, hms]
  constructor
  · intro heq pre e post m₁ m₂ hsplit hpoint hpre hput x hw hlater
    cases heq
    subst hsplit
    obtain ⟨hcode, hspec⟩ := h.values_of_last_writer hle hpre hput hw hlater hms
    rw [if_neg hpoint.not_lt] at hspec
    rw [← hspec, ← hvalp, hcode]
  · intro hhidden
    refine congrArg some (hinvp.ext hinvs fun x => ?_)
    rw [hvalp]
    by_cases hw : m.WrittenBy entries x
    · obtain ⟨pre, e, post, m₁, m₂, rfl, hpre, hput, hwrites, hlater⟩ := h.last_writer hle hw
      obtain ⟨hcode, hspec⟩ := h.values_of_last_writer hle hpre hput hwrites hlater hms
      rw [hspec, hcode]
      by_cases hlt : e.lower < e.upper
      · rw [if_pos hlt]
      · rw [if_neg hlt]
        exact hhidden pre e post m₁ m₂ rfl (le_antisymm (hle e (by simp)) (not_lt.mp hlt)) hpre hput
          x hwrites hlater
    · rw [hvals x hw, overlay_of_not_covers (h.not_covers hle hw)]

end Puts

end PutMany

/-- The map with one entry, value 1 on `[10, 20)`. -/
def tenToTwenty : DistanceRangeMapImpl ℕ := ⟨[⟨10⟩, ⟨20⟩], [some 1]⟩

theorem tenToTwenty_repInv : tenToTwenty.RepInv :=
  .inr ⟨by decide +kernel, rfl, .singleton _, ⟨1, rfl⟩, 1, rfl⟩

/-- The point `[5, 5)` with value 2: `putMany` drops it, `put` writes it up to the first bound. -/
theorem putMany_ne_puts_point : tenToTwenty.putMany [⟨⟨5⟩, ⟨5⟩, 2⟩] = some tenToTwenty ∧
      tenToTwenty.puts [⟨⟨5⟩, ⟨5⟩, 2⟩] = some ⟨[⟨5⟩, ⟨10⟩, ⟨20⟩], [some 2, some 1]⟩ ∧
      tenToTwenty.putMany [⟨⟨5⟩, ⟨5⟩, 2⟩] ≠ tenToTwenty.puts [⟨⟨5⟩, ⟨5⟩, 2⟩] := by
  decide +kernel

/-- Below the map the point's spill stays visible; a later range over it hides it. -/
theorem spillsHidden_tenToTwenty : ¬ tenToTwenty.SpillsHidden [⟨⟨5⟩, ⟨5⟩, 2⟩] ∧
      tenToTwenty.SpillsHidden [⟨⟨5⟩, ⟨5⟩, 2⟩, ⟨⟨0⟩, ⟨15⟩, 3⟩] := by
  constructor
  · rw [← putMany_eq_puts_iff _ tenToTwenty_repInv _ (by decide +kernel)]
    decide +kernel
  · rw [← putMany_eq_puts_iff _ tenToTwenty_repInv _ (by decide +kernel)]
    decide +kernel

end DistanceRangeMapImpl

end Osrd.RangeMap
