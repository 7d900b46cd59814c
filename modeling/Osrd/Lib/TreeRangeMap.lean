import Mathlib.Data.Prod.Lex
import Mathlib.Order.UpperLower.Principal

/-! Maps from disjoint ranges to values, as Guava's `TreeRangeMap` has them.

    A range runs from one cut of the order to another; a cut is just below or just above a key. What a
    map says is followed through its operations at one place at a time. -/

namespace TreeRangeMap

open List Option

/-- A point between the keys, just below (`false`) or just above (`true`) one of them. -/
abbrev Cut (K : Type) := K ×ₗ Bool

variable {K V : Type}

def below (k : K) : Cut K := toLex (k, false)

def above (k : K) : Cut K := toLex (k, true)

def endpoint (c : Cut K) : K := (ofLex c).1

theorem cut_cases (c : Cut K) : c = below (endpoint c) ∨ c = above (endpoint c) := by
  obtain ⟨k, side⟩ := c
  cases side with
  | false => exact .inl rfl
  | true => exact .inr rfl

variable [LinearOrder K]

variable {c : Cut K}

section Cuts

variable {a b : K}

@[simp] theorem below_le_below : below a ≤ below b ↔ a ≤ b := by
  rw [below, below, Prod.Lex.toLex_le_toLex]
  simp [le_iff_lt_or_eq]

@[simp] theorem above_le_above : above a ≤ above b ↔ a ≤ b := by
  rw [above, above, Prod.Lex.toLex_le_toLex]
  simp [le_iff_lt_or_eq]

@[simp] theorem below_le_above : below a ≤ above b ↔ a ≤ b := by
  rw [below, above, Prod.Lex.toLex_le_toLex]
  simp [le_iff_lt_or_eq]

@[simp] theorem above_le_below : above a ≤ below b ↔ a < b := by
  rw [above, below, Prod.Lex.toLex_le_toLex]
  simp

@[simp] theorem below_lt_below : below a < below b ↔ a < b := by
  rw [← not_le, below_le_below, not_le]

@[simp] theorem above_lt_above : above a < above b ↔ a < b := by
  rw [← not_le, above_le_above, not_le]

@[simp] theorem below_lt_above : below a < above b ↔ a ≤ b := by
  rw [← not_le, above_le_below, not_lt]

@[simp] theorem above_lt_below : above a < below b ↔ a < b := by
  rw [← not_le, below_le_above, not_le]

theorem endpoint_le_endpoint {c d : Cut K} (h : c ≤ d) : endpoint c ≤ endpoint d := by
  rcases Prod.Lex.le_iff.mp h with hlt | ⟨heq, -⟩
  · exact hlt.le
  · exact heq.le

theorem above_le_of_below_lt (h : below a < c) : above a ≤ c := by
  rcases cut_cases c with hc | hc
  · rw [hc] at h ⊢
    exact above_le_below.mpr (below_lt_below.mp h)
  · rw [hc] at h ⊢
    exact above_le_above.mpr (below_lt_above.mp h)

theorem endpoint_lt_of_lt_below (h : c < below a) : endpoint c < a := by
  rcases cut_cases c with hc | hc
  · exact below_lt_below.mp (hc ▸ h)
  · exact above_lt_below.mp (hc ▸ h)

theorem le_below_of_endpoint_lt (h : endpoint c < a) : c ≤ below a := by
  rcases cut_cases c with hc | hc
  · exact hc ▸ below_le_below.mpr h.le
  · exact hc ▸ above_le_below.mpr h

end Cuts

/-- The cuts that are not beyond a place: a key, or what is just before a key. -/
abbrev Place (K : Type) [LinearOrder K] := LowerSet (Cut K)

/-! ### Ranges -/

/-- A range that is not empty. -/
structure Range (K : Type) [LinearOrder K] where
  lower : Cut K
  upper : Cut K
  lower_lt_upper : lower < upper

variable {r : Range K}

namespace Range

def closed (a b : K) (h : a ≤ b) : Range K := ⟨below a, above b, below_lt_above.mpr h⟩

def closedOpen (a b : K) (h : a < b) : Range K := ⟨below a, below b, below_lt_below.mpr h⟩

/-- The place is in the range. -/
def Has (r : Range K) (place : Place K) : Prop := r.lower ∈ place ∧ r.upper ∉ place

/-- The range between two cuts, `none` when there is nothing between them. -/
def between (c d : Cut K) : Option (Range K) := if h : c < d then some ⟨c, d, h⟩ else none

def inter (r s : Range K) : Option (Range K) := between (max r.lower s.lower) (min r.upper s.upper)

/-- The part before a cut. -/
def before (c : Cut K) (r : Range K) : Option (Range K) := between r.lower (min r.upper c)

/-- The part after a cut. -/
def after (c : Cut K) (r : Range K) : Option (Range K) := between (max r.lower c) r.upper

theorem between_eq_some {c d : Cut K} : between c d = some r ↔ r.lower = c ∧ r.upper = d := by
  rw [between]
  constructor
  · intro h
    split at h
    · cases h
      exact ⟨rfl, rfl⟩
    · cases h
  · rintro ⟨rfl, rfl⟩
    exact dif_pos r.lower_lt_upper

end Range

section Places

variable {place : Place K} {r s : Range K} {c d : Cut K}

theorem lt_of_place (hc : c ∈ place) (hd : d ∉ place) : c < d := by
  by_contra hle
  exact hd (place.lower (not_lt.mp hle) hc)

theorem max_mem_place : max c d ∈ place ↔ c ∈ place ∧ d ∈ place := by
  refine ⟨fun h => ⟨place.lower (le_max_left c d) h, place.lower (le_max_right c d) h⟩, ?_⟩
  rintro ⟨hc, hd⟩
  rcases max_choice c d with h | h
  · rwa [h]
  · rwa [h]

theorem min_mem_place : min c d ∈ place ↔ c ∈ place ∨ d ∈ place := by
  constructor
  · intro h
    rcases min_choice c d with h' | h'
    · exact .inl (h' ▸ h)
    · exact .inr (h' ▸ h)
  · rintro (hc | hd)
    · exact place.lower (min_le_left c d) hc
    · exact place.lower (min_le_right c d) hd

theorem has_between : (∃ q, Range.between c d = some q ∧ q.Has place) ↔ c ∈ place ∧ d ∉ place := by
  constructor
  · rintro ⟨q, hq, hhas⟩
    obtain ⟨rfl, rfl⟩ := Range.between_eq_some.mp hq
    exact hhas
  · intro hhas
    exact ⟨⟨c, d, lt_of_place hhas.1 hhas.2⟩, Range.between_eq_some.mpr ⟨rfl, rfl⟩, hhas⟩

theorem has_inter : (∃ q, r.inter s = some q ∧ q.Has place) ↔ r.Has place ∧ s.Has place := by
  rw [Range.inter, has_between, max_mem_place, min_mem_place, not_or]
  exact and_and_and_comm

theorem has_before : (∃ q, r.before c = some q ∧ q.Has place) ↔ r.Has place ∧ c ∉ place := by
  rw [Range.before, has_between, min_mem_place, not_or]
  exact and_assoc.symm

theorem has_after : (∃ q, r.after c = some q ∧ q.Has place) ↔ r.Has place ∧ c ∈ place := by
  rw [Range.after, has_between, max_mem_place]
  exact and_right_comm

/-- Two ranges of which one is before the other have no place in common. -/
theorem not_has_of_le (hle : r.upper ≤ s.lower) (hr : r.Has place) : ¬ s.Has place :=
  fun hs => hr.2 (place.lower hle hs.1)

end Places

/-- The place of a key. -/
def atKey (k : K) : Place K := LowerSet.Iic (below k)

/-- The place just before a key. -/
def beforeKey (k : K) : Place K := LowerSet.Iio (below k)

section Keys

variable {r : Range K} {k : K}

theorem has_Iic : r.Has (LowerSet.Iic c) ↔ r.lower ≤ c ∧ c < r.upper := by
  rw [Range.Has, LowerSet.mem_Iic_iff, LowerSet.mem_Iic_iff, not_le]

theorem has_Iio : r.Has (LowerSet.Iio c) ↔ r.lower < c ∧ c ≤ r.upper := by
  rw [Range.Has, LowerSet.mem_Iio_iff, LowerSet.mem_Iio_iff, not_lt]

theorem has_atKey : r.Has (atKey k) ↔ r.lower ≤ below k ∧ below k < r.upper := has_Iic

theorem has_beforeKey : r.Has (beforeKey k) ↔ r.lower < below k ∧ below k ≤ r.upper := has_Iio

theorem has_lower (r : Range K) : r.Has (LowerSet.Iic r.lower) :=
  has_Iic.mpr ⟨le_rfl, r.lower_lt_upper⟩

theorem has_upper (r : Range K) : r.Has (LowerSet.Iio r.upper) :=
  has_Iio.mpr ⟨r.lower_lt_upper, le_rfl⟩

end Keys

/-! ### Maps -/

structure Entry (K V : Type) [LinearOrder K] where
  range : Range K
  value : V

/-- The entry with another value. -/
def Entry.map (f : V → V) (e : Entry K V) : Entry K V := ⟨e.range, f e.value⟩

/-- The ranges of the list follow each other. -/
def Ordered (entries : List (Entry K V)) : Prop :=
  entries.Pairwise fun e e' => e.range.upper ≤ e'.range.lower

/-- The list has the value at the place. -/
def Holds (entries : List (Entry K V)) (place : Place K) (value : V) : Prop :=
  ∃ e ∈ entries, e.range.Has place ∧ e.value = value

variable {e : Entry K V}

section Lists

variable {place : Place K} {entries entries' : List (Entry K V)} {value value' : V}

theorem holds_append : Holds (entries ++ entries') place value ↔
    Holds entries place value ∨ Holds entries' place value := by
  simp only [Holds, mem_append, or_and_right, exists_or]

theorem holds_cons : Holds (e :: entries) place value ↔
    (e.range.Has place ∧ e.value = value) ∨ Holds entries place value := by
  simp only [Holds, mem_cons, or_and_right, exists_or, exists_eq_left]

theorem not_holds_nil : ¬ Holds ([] : List (Entry K V)) place value :=
  fun ⟨_, he, _⟩ => nomatch he

theorem holds_map {f : V → V} : Holds (entries.map (Entry.map f)) place value ↔
    ∃ old, Holds entries place old ∧ value = f old := by
  constructor
  · rintro ⟨_, hmem, hhas, rfl⟩
    obtain ⟨e, he, rfl⟩ := mem_map.mp hmem
    exact ⟨e.value, ⟨e, he, hhas, rfl⟩, rfl⟩
  · rintro ⟨_, ⟨e, he, hhas, rfl⟩, rfl⟩
    exact ⟨e.map f, mem_map_of_mem he, hhas, rfl⟩

theorem Holds.eq (hordered : Ordered entries) (h : Holds entries place value)
    (h' : Holds entries place value') : value = value' := by
  induction entries with
  | nil => exact absurd h not_holds_nil
  | cons e entries ih =>
    obtain ⟨hbefore, hordered⟩ := pairwise_cons.mp hordered
    have hrest : ∀ {x : V}, e.range.Has place → ¬ Holds entries place x := by
      rintro x he ⟨e', he', hhas, -⟩
      exact not_has_of_le (hbefore e' he') he hhas
    rcases holds_cons.mp h with ⟨he, rfl⟩ | h
    · rcases holds_cons.mp h' with ⟨-, rfl⟩ | h'
      · rfl
      · exact absurd h' (hrest he)
    · rcases holds_cons.mp h' with ⟨he, -⟩ | h'
      · exact absurd h (hrest he)
      · exact ih hordered h h'

/-- The parts of the entries that `part` keeps. -/
def restrict (part : Range K → Option (Range K)) (entries : List (Entry K V)) : List (Entry K V) :=
  entries.filterMap fun e => (part e.range).map (⟨·, e.value⟩)

variable {part : Range K → Option (Range K)}

theorem mem_restrict : e ∈ restrict part entries ↔
      ∃ e' ∈ entries, part e'.range = some e.range ∧ e'.value = e.value := by
  rw [restrict, mem_filterMap]
  constructor
  · rintro ⟨e', he', hpart⟩
    obtain ⟨r, hr, rfl⟩ := map_eq_some_iff.mp hpart
    exact ⟨e', he', hr, rfl⟩
  · rintro ⟨e', he', hpart, hvalue⟩
    refine ⟨e', he', ?_⟩
    rw [hpart, hvalue]
    rfl

theorem holds_restrict {P : Prop}
    (hpart : ∀ r : Range K, (∃ q, part r = some q ∧ q.Has place) ↔ r.Has place ∧ P) :
    Holds (restrict part entries) place value ↔ Holds entries place value ∧ P := by
  constructor
  · rintro ⟨e, he, hhas, rfl⟩
    obtain ⟨e', he', hr, hvalue⟩ := mem_restrict.mp he
    obtain ⟨hhas', hP⟩ := (hpart e'.range).mp ⟨e.range, hr, hhas⟩
    exact ⟨⟨e', he', hhas', hvalue⟩, hP⟩
  · rintro ⟨⟨e, he, hhas, rfl⟩, hP⟩
    obtain ⟨q, hq, hhas'⟩ := (hpart e.range).mpr ⟨hhas, hP⟩
    exact ⟨⟨q, e.value⟩, mem_restrict.mpr ⟨e, he, hq, rfl⟩, hhas', rfl⟩

theorem ordered_restrict (hpart : ∀ r q, part r = some q → r.lower ≤ q.lower ∧ q.upper ≤ r.upper)
    (hordered : Ordered entries) : Ordered (restrict part entries) := by
  refine hordered.filterMap _ fun e e' hle q hq q' hq' => ?_
  obtain ⟨r, hr, rfl⟩ := map_eq_some_iff.mp hq
  obtain ⟨r', hr', rfl⟩ := map_eq_some_iff.mp hq'
  exact (hpart _ _ hr).2.trans (hle.trans (hpart _ _ hr').1)

theorem ordered_append (h : Ordered entries) (h' : Ordered entries')
    (hbefore : ∀ e ∈ entries, e.range.upper ≤ c) (hafter : ∀ e ∈ entries', c ≤ e.range.lower) :
    Ordered (entries ++ entries') :=
  pairwise_append.mpr
    ⟨h, h', fun e he e' he' => (hbefore e he).trans (hafter e' he')⟩

end Lists

/-! ### What is left of the entries before, in and after a range -/

section Parts

variable {place : Place K} {entries : List (Entry K V)} {value : V} {c : Cut K}

theorem ordered_before (c : Cut K) (hordered : Ordered entries) :
    Ordered (restrict (Range.before c) entries) := by
  refine ordered_restrict (fun r q hq => ?_) hordered
  obtain ⟨hlower, hupper⟩ := Range.between_eq_some.mp hq
  exact ⟨hlower.ge, hupper.le.trans (min_le_left _ _)⟩

theorem ordered_after (c : Cut K) (hordered : Ordered entries) :
    Ordered (restrict (Range.after c) entries) := by
  refine ordered_restrict (fun r q hq => ?_) hordered
  obtain ⟨hlower, hupper⟩ := Range.between_eq_some.mp hq
  exact ⟨(le_max_left _ _).trans hlower.ge, hupper.le⟩

theorem ordered_inter (s : Range K) (hordered : Ordered entries) :
    Ordered (restrict (Range.inter s) entries) := by
  refine ordered_restrict (fun r q hq => ?_) hordered
  obtain ⟨hlower, hupper⟩ := Range.between_eq_some.mp hq
  exact ⟨(le_max_right _ _).trans hlower.ge, hupper.le.trans (min_le_right _ _)⟩

theorem upper_le_of_before (he : e ∈ restrict (Range.before c) entries) : e.range.upper ≤ c := by
  obtain ⟨e', -, hq, -⟩ := mem_restrict.mp he
  exact (Range.between_eq_some.mp hq).2.le.trans (min_le_right _ _)

theorem le_lower_of_after (he : e ∈ restrict (Range.after c) entries) : c ≤ e.range.lower := by
  obtain ⟨e', -, hq, -⟩ := mem_restrict.mp he
  exact (le_max_right _ _).trans (Range.between_eq_some.mp hq).1.ge

theorem bounds_of_inter {s : Range K} (he : e ∈ restrict (Range.inter s) entries) :
    s.lower ≤ e.range.lower ∧ e.range.upper ≤ s.upper := by
  obtain ⟨e', -, hq, -⟩ := mem_restrict.mp he
  obtain ⟨hlower, hupper⟩ := Range.between_eq_some.mp hq
  exact ⟨(le_max_left _ _).trans hlower.ge, hupper.le.trans (min_le_left _ _)⟩

end Parts

/-! ### The map and its operations -/

/-- A map from disjoint ranges, in their order. -/
structure RangeMap (K V : Type) [LinearOrder K] where
  entries : List (Entry K V)
  ordered : Ordered entries

variable {entries : List (Entry K V)}

namespace RangeMap

section Operations

variable (m : RangeMap K V) (r : Range K)

def empty : RangeMap K V := ⟨[], .nil⟩

/-- `put` cuts what it meets and overwrites. -/
def put (value : V) : RangeMap K V where
  entries := restrict (Range.before r.lower) m.entries ++
    ⟨r, value⟩ :: restrict (Range.after r.upper) m.entries
  ordered := by
    refine ordered_append (c := r.lower) (ordered_before _ m.ordered) ?_
      (fun e he => upper_le_of_before he) ?_
    · exact List.pairwise_cons.mpr
        ⟨fun e he => le_lower_of_after he, ordered_after _ m.ordered⟩
    · intro e he
      rcases List.mem_cons.mp he with rfl | he
      · exact le_rfl
      · exact r.lower_lt_upper.le.trans (le_lower_of_after he)

/-- `putAll` puts one entry after the other. -/
def putAll (n : RangeMap K V) : RangeMap K V :=
  n.entries.foldl (fun m e => m.put e.range e.value) m

/-- `subRangeMap(r).asMapOfRanges()` -/
def subRangeMap : List (Entry K V) := restrict (Range.inter r) m.entries

/-- `merge` puts the value on a range, and the remapped value where there was one. -/
def merge (value : V) (remappingFunction : V → V → V) : RangeMap K V :=
  ((m.subRangeMap r).map (Entry.map (remappingFunction · value))).foldl
    (fun m e => m.put e.range e.value) (m.put r value)

end Operations

/-- Ordered entries between two cuts. -/
structure Inside (lower : Cut K) (entries : List (Entry K V)) (upper : Cut K) : Prop where
  ordered : Ordered entries
  bounds : ∀ e ∈ entries, lower ≤ e.range.lower ∧ e.range.upper ≤ upper

theorem Inside.tail {lower upper : Cut K} (h : Inside lower (e :: entries) upper) :
    Inside e.range.upper entries upper where
  ordered := (pairwise_cons.mp h.ordered).2
  bounds := fun e' he' => ⟨(pairwise_cons.mp h.ordered).1 e' he', (h.bounds e' (mem_cons_of_mem e he')).2⟩

theorem inside_subRangeMap (m : RangeMap K V) (r : Range K) : Inside r.lower (m.subRangeMap r) r.upper :=
  ⟨ordered_inter r m.ordered, fun _ he => bounds_of_inter he⟩

/-! ### What the operations say at a place -/

/-- The map has the value at the place. -/
def HoldsAt (m : RangeMap K V) (place : Place K) (value : V) : Prop :=
  Holds m.entries place value

/-- The map has some value at the place. -/
def Covers (m : RangeMap K V) (place : Place K) : Prop := ∃ value, m.HoldsAt place value

section Places

variable {m : RangeMap K V} {r : Range K} {place : Place K} {value w : V}

theorem HoldsAt.eq {value' : V} (h : m.HoldsAt place value) (h' : m.HoldsAt place value') :
    value = value' :=
  Holds.eq m.ordered h h'

theorem not_has_iff : ¬ r.Has place ↔ r.lower ∉ place ∨ r.upper ∈ place := by
  rw [Range.Has, not_and_or, not_not]

theorem holdsAt_empty : ¬ (empty : RangeMap K V).HoldsAt place value := not_holds_nil

theorem holdsAt_put : (m.put r value).HoldsAt place w ↔
    (r.Has place ∧ w = value) ∨ (¬ r.Has place ∧ m.HoldsAt place w) := by
  rw [HoldsAt, put, holds_append, holds_cons, holds_restrict (fun _ => has_before),
    holds_restrict (fun _ => has_after), not_has_iff, HoldsAt]
  constructor
  · rintro (⟨h, hlower⟩ | ⟨hhas, rfl⟩ | ⟨h, hupper⟩)
    · exact .inr ⟨.inl hlower, h⟩
    · exact .inl ⟨hhas, rfl⟩
    · exact .inr ⟨.inr hupper, h⟩
  · rintro (⟨hhas, rfl⟩ | ⟨hlower | hupper, h⟩)
    · exact .inr (.inl ⟨hhas, rfl⟩)
    · exact .inl ⟨h, hlower⟩
    · exact .inr (.inr ⟨h, hupper⟩)

theorem holds_subRangeMap : Holds (m.subRangeMap r) place value ↔ m.HoldsAt place value ∧ r.Has place :=
  holds_restrict fun _ => by rw [has_inter, and_comm]

theorem holdsAt_foldl_put : ∀ {entries : List (Entry K V)} {m : RangeMap K V}, Ordered entries →
    ((entries.foldl (fun m e => m.put e.range e.value) m).HoldsAt place w ↔
      Holds entries place w ∨ ((∀ x, ¬ Holds entries place x) ∧ m.HoldsAt place w))
  | [], m, _ => by
    simp only [foldl_nil, not_holds_nil, false_or, not_false_eq_true, implies_true, true_and]
  | e :: entries, m, hordered => by
    obtain ⟨hbefore, hordered⟩ := pairwise_cons.mp hordered
    rw [foldl_cons, holdsAt_foldl_put hordered, holdsAt_put]
    by_cases he : e.range.Has place
    · have hrest : ∀ x, ¬ Holds entries place x := by
        rintro x ⟨e', he', hhas, -⟩
        exact not_has_of_le (hbefore e' he') he hhas
      simp only [hrest, he, holds_cons, not_false_eq_true, implies_true, not_true_eq_false,
        false_and, true_and, false_or, or_false, forall_eq']
      exact eq_comm
    · simp only [he, holds_cons, not_false_eq_true, false_and, true_and, false_or]

theorem holdsAt_merge {remappingFunction : V → V → V} :
    (m.merge r value remappingFunction).HoldsAt place w ↔
      (r.Has place ∧ ((∃ old, m.HoldsAt place old ∧ w = remappingFunction old value) ∨
        (¬ m.Covers place ∧ w = value))) ∨ (¬ r.Has place ∧ m.HoldsAt place w) := by
  have hordered : Ordered ((m.subRangeMap r).map (Entry.map (remappingFunction · value))) :=
    pairwise_map.mpr (ordered_inter r m.ordered)
  rw [merge, holdsAt_foldl_put hordered, holdsAt_put]
  simp only [holds_map, holds_subRangeMap]
  by_cases hhas : r.Has place
  · simp only [hhas, Covers, and_true, true_and, not_true_eq_false, false_and, or_false, not_exists, not_and]
    refine or_congr_right (and_congr_left' ⟨fun h old hold => h _ old hold rfl, ?_⟩)
    exact fun h _ old hold _ => h old hold
  · simp only [hhas, and_false, false_and, exists_false, not_false_eq_true, implies_true, true_and, false_or]

/-- `putAll` overwrites with everything the other map says. -/
theorem holdsAt_putAll {n : RangeMap K V} : (m.putAll n).HoldsAt place w ↔
    n.HoldsAt place w ∨ (¬ n.Covers place ∧ m.HoldsAt place w) := by
  rw [putAll, holdsAt_foldl_put n.ordered, Covers, not_exists]
  rfl

theorem covers_putAll {n : RangeMap K V} :
    (m.putAll n).Covers place ↔ n.Covers place ∨ m.Covers place := by
  constructor
  · rintro ⟨w, hw⟩
    rcases holdsAt_putAll.mp hw with hw | ⟨-, hw⟩
    · exact .inl ⟨w, hw⟩
    · exact .inr ⟨w, hw⟩
  · intro h
    by_cases hn : n.Covers place
    · obtain ⟨w, hw⟩ := hn
      exact ⟨w, holdsAt_putAll.mpr (.inl hw)⟩
    · obtain ⟨w, hw⟩ := h.resolve_left hn
      exact ⟨w, holdsAt_putAll.mpr (.inr ⟨hn, hw⟩)⟩

end Places

end RangeMap

/-! ### Entries without a gap -/

/-- The range from the start of the first entry to the end of the last one. -/
def span (entries : List (Entry K V)) : Option (Range K) := do
  let first ← entries.head?
  let last ← entries.getLast?
  Range.between first.range.lower last.range.upper

theorem span_eq_some : span entries = some r ↔
    (∃ first, entries.head? = some first ∧ first.range.lower = r.lower) ∧
      ∃ last, entries.getLast? = some last ∧ last.range.upper = r.upper := by
  rw [span, bind_eq_bind, bind_eq_some_iff]
  constructor
  · rintro ⟨first, hfirst, h⟩
    obtain ⟨last, hlast, h⟩ := bind_eq_some_iff.mp h
    obtain ⟨hlower, hupper⟩ := Range.between_eq_some.mp h
    exact ⟨⟨first, hfirst, hlower.symm⟩, last, hlast, hupper.symm⟩
  · rintro ⟨⟨first, hfirst, hlower⟩, last, hlast, hupper⟩
    exact ⟨first, hfirst, bind_eq_some_iff.mpr
      ⟨last, hlast, Range.between_eq_some.mpr ⟨hlower.symm, hupper.symm⟩⟩⟩

/-- Ordered entries are between the start of the first one and the end of the last one. -/
theorem Ordered.inside (hordered : Ordered entries) {first last : Entry K V}
    (hfirst : entries.head? = some first) (hlast : entries.getLast? = some last) :
    RangeMap.Inside first.range.lower entries last.range.upper := by
  refine ⟨hordered, fun e he => ⟨?_, ?_⟩⟩
  · obtain ⟨rest, rfl⟩ := head?_eq_some_iff.mp hfirst
    rcases mem_cons.mp he with rfl | he
    · exact le_rfl
    · exact first.range.lower_lt_upper.le.trans ((pairwise_cons.mp hordered).1 e he)
  · obtain ⟨init, rfl⟩ := getLast?_eq_some_iff.mp hlast
    rcases mem_append.mp he with he | he
    · exact ((pairwise_append.mp hordered).2.2 e he last (mem_singleton_self last)).trans
        last.range.lower_lt_upper.le
    · rw [mem_singleton.mp he]

theorem Ordered.exists_span (hordered : Ordered entries) (hne : entries ≠ []) :
    ∃ r, span entries = some r ∧ RangeMap.Inside r.lower entries r.upper := by
  have hfirst := head?_eq_some_head hne
  have hlast := getLast?_eq_some_getLast hne
  have hinside := hordered.inside hfirst hlast
  have hlt := (entries.head hne).range.lower_lt_upper.trans_le
    (hinside.bounds _ (head_mem hne)).2
  exact ⟨⟨_, _, hlt⟩, span_eq_some.mpr ⟨⟨_, hfirst, rfl⟩, _, hlast, rfl⟩, hinside⟩

/-- Each entry starts where the one before ends. -/
def Contiguous : Cut K → List (Entry K V) → Cut K → Prop
  | lower, [], upper => lower = upper
  | lower, e :: entries, upper => e.range.lower = lower ∧ Contiguous e.range.upper entries upper

theorem Contiguous.upper_getLast : ∀ {entries : List (Entry K V)} {lower upper : Cut K}
    {last : Entry K V}, Contiguous lower entries upper → entries.getLast? = some last →
    last.range.upper = upper
  | [_], _, _, _, ⟨_, h⟩, hlast => by
    cases hlast
    exact h
  | _ :: _ :: _, _, _, _, ⟨_, h⟩, hlast =>
    h.upper_getLast (getLast?_cons_cons.symm.trans hlast)

theorem Contiguous.span_eq (h : Contiguous r.lower entries r.upper) : span entries = some r := by
  cases entries with
  | nil => exact absurd h r.lower_lt_upper.ne
  | cons e entries =>
    have hlast := getLast?_eq_some_getLast (cons_ne_nil e entries)
    exact span_eq_some.mpr ⟨⟨e, rfl, h.1⟩, _, hlast, h.upper_getLast hlast⟩

/-- Without a gap there is a value at every place. -/
theorem Contiguous.holds {place : Place K} : ∀ {entries : List (Entry K V)}
    {lower upper : Cut K}, Contiguous lower entries upper → lower ∈ place → upper ∉ place →
    ∃ value, Holds entries place value
  | [], lower, upper, h, hlower, hupper => absurd (h ▸ hlower) hupper
  | e :: entries, lower, upper, ⟨he, h⟩, hlower, hupper => by
    by_cases hend : e.range.upper ∈ place
    · obtain ⟨value, hvalue⟩ := h.holds hend hupper
      exact ⟨value, holds_cons.mpr (.inr hvalue)⟩
    · exact ⟨e.value, holds_cons.mpr (.inl ⟨⟨he ▸ hlower, hend⟩, rfl⟩)⟩

/-- Entries with a value at every key and every end between two cuts leave no gap. -/
theorem contiguous_of_holds : ∀ {entries : List (Entry K V)} {lower upper : Cut K}, lower ≤ upper →
    RangeMap.Inside lower entries upper →
    (∀ c, lower ≤ c → c < upper → ∃ value, Holds entries (LowerSet.Iic c) value) →
    Contiguous lower entries upper
  | [], lower, upper, hle, _, hholds => by
    by_contra hne
    obtain ⟨value, hvalue⟩ := hholds lower le_rfl (lt_of_le_of_ne hle hne)
    exact not_holds_nil hvalue
  | e :: entries, lower, upper, hle, h, hholds => by
    obtain ⟨hlower, hupper⟩ := h.bounds e mem_cons_self
    have hlt := e.range.lower_lt_upper
    obtain ⟨value, hvalue⟩ := hholds lower le_rfl (hlower.trans_lt (hlt.trans_le hupper))
    constructor
    · rcases holds_cons.mp hvalue with ⟨hhas, -⟩ | ⟨e', he', hhas, -⟩
      · exact le_antisymm hhas.1 hlower
      · have : e.range.upper ≤ lower := (h.tail.bounds e' he').1.trans hhas.1
        exact absurd (hlower.trans_lt hlt) this.not_gt
    · refine contiguous_of_holds hupper h.tail fun c hc hcu => ?_
      obtain ⟨value, hvalue⟩ := hholds c (hlower.trans (hlt.le.trans hc)) hcu
      rcases holds_cons.mp hvalue with ⟨hhas, -⟩ | hvalue
      · exact absurd hc hhas.2
      · exact ⟨value, hvalue⟩

/-- A map that covers what is between two cuts spans them. -/
theorem RangeMap.span_eq {m : RangeMap K V} (h : ∀ place, m.Covers place ↔ r.Has place) :
    span m.entries = some r := by
  have hne : m.entries ≠ [] := by
    obtain ⟨value, e, he, -⟩ := (h _).mpr (has_lower r)
    exact ne_nil_of_mem he
  obtain ⟨s, hs, hinside⟩ := m.ordered.exists_span hne
  obtain ⟨⟨first, hfirst, hlower⟩, last, hlast, hupper⟩ := span_eq_some.mp hs
  have hlower' : s.lower = r.lower := by
    refine le_antisymm ?_ ?_
    · obtain ⟨value, e, he, hhas, -⟩ := (h _).mpr (has_lower r)
      exact (hinside.bounds e he).1.trans (has_Iic.mp hhas).1
    · rw [← hlower]
      exact (has_Iic.mp ((h _).mp ⟨_, first, mem_of_head? hfirst, has_lower _, rfl⟩)).1
  have hupper' : s.upper = r.upper := by
    refine le_antisymm ?_ ?_
    · rw [← hupper]
      exact (has_Iio.mp ((h _).mp ⟨_, last, mem_of_getLast? hlast, has_upper _, rfl⟩)).2
    · obtain ⟨value, e, he, hhas, -⟩ := (h _).mpr (has_upper r)
      exact (has_Iio.mp hhas).2.trans (hinside.bounds e he).2
  obtain ⟨c, d, hcd⟩ := s
  subst hlower' hupper'
  exact hs

end TreeRangeMap
