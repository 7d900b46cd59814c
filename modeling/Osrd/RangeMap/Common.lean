import Osrd.RangeMap.Values

/-! Two questions about whole maps that `DistanceRangeMap.kt` answers with loops over the entries:
    the ranges on which two maps are both constant (`commonRanges`), and whether a map has a value at every
    distance from 0 to a length (`fullyCovers`).

    `commonRanges` moves two iterators in lock step; the entry that ends last is kept, with its lower bound
    moved up. Each round so cuts the same piece off both maps (`remaining`), and the ranges it yields are
    the entries of the pointwise pair of the two maps. -/

namespace Osrd.RangeMap

open List Option

namespace DistanceRangeMapImpl

variable {T U R : Type}

/-! ### The two loops -/

section Model

variable (transform : Distance → Distance → T → U → R)

/-- The `while` loop of `commonRanges`, from the two current entries and what the iterators have left. -/
def commonRangesLoop (thisEntry : RangeMapEntry T) (thisIt : List (RangeMapEntry T))
    (otherEntry : RangeMapEntry U) (otherIt : List (RangeMapEntry U)) : Option (List R) :=
  let upper := min thisEntry.upper otherEntry.upper
  if thisEntry.lower ≠ otherEntry.lower then none
  else
    (transform thisEntry.lower upper thisEntry.value otherEntry.value :: ·) <$>
      if _ : thisEntry.upper = upper then
        match thisIt with
        | [] => if otherEntry.upper = upper ∧ otherIt.isEmpty then some [] else none
        | thisNext :: thisIt =>
          if otherEntry.upper = upper then
            match otherIt with
            | [] => none
            | otherNext :: otherIt => commonRangesLoop thisNext thisIt otherNext otherIt
          else commonRangesLoop thisNext thisIt { otherEntry with lower := upper } otherIt
      else if _ : otherEntry.upper = upper then
        match otherIt with
        | [] => none
        | otherNext :: otherIt =>
          commonRangesLoop { thisEntry with lower := upper } thisIt otherNext otherIt
      else
        -- `upper` is one of the two
        commonRangesLoop { thisEntry with lower := upper } thisIt { otherEntry with lower := upper } otherIt
termination_by thisIt.length + otherIt.length
decreasing_by
  · simp only [List.length_cons]
    omega
  · simp only [List.length_cons]
    omega
  · simp only [List.length_cons]
    omega
  · rename_i hthis hother
    rcases min_choice thisEntry.upper otherEntry.upper with hmin | hmin
    · exact absurd hmin.symm hthis
    · exact absurd hmin.symm hother

/-- `commonRanges` on what the two iterators yield: the first entries are taken before the loop. -/
def commonEntries : List (RangeMapEntry T) → List (RangeMapEntry U) → Option (List R)
  | [], [] => some []
  | [], _ :: _ => none
  | _ :: _, [] => none
  | thisEntry :: thisIt, otherEntry :: otherIt =>
    commonRangesLoop transform thisEntry thisIt otherEntry otherIt

/-- The whole sequence of the ranges where the two maps are constant, or `none` when it throws. -/
def commonRangesWith (m : DistanceRangeMapImpl T) (other : DistanceRangeMapImpl U) : Option (List R) := do
  commonEntries transform (← m.toList) (← other.toList)

end Model

def commonRanges (m : DistanceRangeMapImpl T) (other : DistanceRangeMapImpl U) :
    Option (List (RangeMapEntry (T × U))) :=
  commonRangesWith (fun lower upper t u => ⟨lower, upper, (t, u)⟩) m other

/-- The loop of `fullyCovers` over the entries. -/
def fullyCoversLoop (length : Distance) : Option Distance → List (RangeMapEntry T) → Bool
  | _, [] => length ≤ ⟨0⟩
  | prevUpper, entry :: entries =>
      if entry.upper ≤ ⟨0⟩ then fullyCoversLoop length prevUpper entries
      else if prevUpper.any (· ≠ entry.lower) then false
      else if length ≤ entry.upper then true
      else fullyCoversLoop length (some entry.upper) entries

def fullyCovers (m : DistanceRangeMapImpl T) (length : Distance) : Option Bool :=
  m.toList.map (fullyCoversLoop length none)

/-! ### Cutting the first piece off the entries -/

/-- The entries once everything below `u` has been consumed, `u` being inside the first one or its end. -/
def remaining (u : Distance) (e : RangeMapEntry T) (es : List (RangeMapEntry T)) : List (RangeMapEntry T) :=
  if e.upper = u then es else { e with lower := u } :: es

theorem commonRangesLoop_eq (transform : Distance → Distance → T → U → R) (e : RangeMapEntry T)
    (es : List (RangeMapEntry T)) (e' : RangeMapEntry U) (es' : List (RangeMapEntry U)) :
    commonRangesLoop transform e es e' es' = let u := min e.upper e'.upper
      if e.lower ≠ e'.lower then none
      else (transform e.lower u e.value e'.value :: ·) <$>
        commonEntries transform (remaining u e es) (remaining u e' es') := by
  rw [commonRangesLoop.eq_def]
  dsimp only
  congr 2
  by_cases hthis : e.upper = min e.upper e'.upper
  · rw [dif_pos hthis, remaining, if_pos hthis]
    by_cases hother : e'.upper = min e.upper e'.upper
    · rw [remaining, if_pos hother]
      cases es with
      | nil => cases es' <;> simp [commonEntries, ← hother]
      | cons e₁ es₁ => cases es' <;> simp [commonEntries, ← hother]
    · rw [remaining, if_neg hother]
      cases es <;> simp [commonEntries, hother]
  · rw [dif_neg hthis, remaining, if_neg hthis]
    by_cases hother : e'.upper = min e.upper e'.upper
    · rw [dif_pos hother, remaining, if_pos hother]
      cases es' <;> rfl
    · rw [dif_neg hother, remaining, if_neg hother]
      rfl

/-! ### The first entry -/

section First

variable {e : RangeMapEntry T} {es : List (RangeMapEntry T)} (h : EntriesInv (e :: es))

include h

theorem EntriesInv.entryValue_lower : entryValue (e :: es) e.lower = some e.value := by
  rw [h.entryValue_of_lt (h.pos e mem_cons_self), if_pos le_rfl]

/-- Nothing is mapped below the first entry. -/
theorem EntriesInv.lower_le {x : Distance} (hx : (entryValue (e :: es) x).isSome) : e.lower ≤ x := by
  by_contra hlt
  have hupper : x < e.upper := (not_le.mp hlt).trans (h.pos e mem_cons_self)
  rw [h.entryValue_of_lt hupper, if_neg hlt] at hx
  exact absurd hx (by simp)

/-- At the end of the first entry its value is over. -/
theorem EntriesInv.entryValue_upper_ne : entryValue (e :: es) e.upper ≠ some e.value := by
  rw [entryValue_of_le le_rfl]
  cases es with
  | nil => simp [entryValue]
  | cons e' es =>
    have hpos := h.tail.pos e' mem_cons_self
    rcases (isChain_cons_cons.mp h.chain).1 with hlt | ⟨heq, hne⟩
    · rw [h.tail.entryValue_of_lt (hlt.trans hpos), if_neg hlt.not_ge]
      simp
    · rw [heq, h.tail.entryValue_lower]
      simpa using hne.symm

theorem EntriesInv.cut {u : Distance} (hu : u ≤ e.upper) : EntriesInv (remaining u e es) := by
  rw [remaining]
  split
  · exact h.tail
  · rename_i hne
    have hchain := isChain_cons.mp h.chain
    refine ⟨forall_mem_cons.mpr ⟨?_, h.tail.pos⟩, isChain_cons.mpr hchain⟩
    exact lt_of_le_of_ne hu (Ne.symm hne)

theorem EntriesInv.entryValue_remaining {u : Distance} (hlower : e.lower ≤ u) (hu : u ≤ e.upper)
    (x : Distance) : entryValue (remaining u e es) x = if x < u then none else entryValue (e :: es) x := by
  have hinv := h.cut hu
  rw [remaining] at hinv ⊢
  split at hinv
  · rename_i heq
    subst heq
    rw [if_pos rfl]
    split
    · rename_i hlt
      exact h.entryValue_tail hlt
    · rename_i hnlt
      exact (entryValue_of_le (not_lt.mp hnlt)).symm
  · rename_i hne
    rw [if_neg hne]
    by_cases hx : x < e.upper
    · rw [hinv.entryValue_of_lt hx, h.entryValue_of_lt hx]
      by_cases hlt : x < u
      · rw [if_pos hlt, if_neg hlt.not_ge]
      · rw [if_neg hlt, if_pos (not_lt.mp hlt), if_pos (hlower.trans (not_lt.mp hlt))]
    · have hle : e.upper ≤ x := not_lt.mp hx
      rw [if_neg (hu.trans hle).not_gt, entryValue_of_le hle]
      exact entryValue_of_le hle

end First

theorem length_remaining_le (u : Distance) (e : RangeMapEntry T) (es : List (RangeMapEntry T)) :
    (remaining u e es).length ≤ es.length + 1 := by
  rw [remaining]
  split <;> simp

theorem length_remaining_lt (e : RangeMapEntry T) (es : List (RangeMapEntry T)) (e' : RangeMapEntry U)
    (es' : List (RangeMapEntry U)) :
    (remaining (min e.upper e'.upper) e es).length + (remaining (min e.upper e'.upper) e' es').length <
      (e :: es).length + (e' :: es').length := by
  have hle := length_remaining_le (min e.upper e'.upper) e es
  have hle' := length_remaining_le (min e.upper e'.upper) e' es'
  rw [length_cons, length_cons]
  rcases min_choice e.upper e'.upper with hmin | hmin
  · have hrest : remaining (min e.upper e'.upper) e es = es := if_pos hmin.symm
    rw [hrest]
    omega
  · have hrest : remaining (min e.upper e'.upper) e' es' = es' := if_pos hmin.symm
    rw [hrest]
    omega

/-! ### The ranges `commonRanges` yields -/

/-- The entries of the two maps are mapped over the same distances. -/
def SameDomain (es : List (RangeMapEntry T)) (es' : List (RangeMapEntry U)) : Prop :=
  ∀ x, (entryValue es x).isSome = (entryValue es' x).isSome

/-- Entries that hold, at each distance, the two values of two maps. -/
structure PairEntries (es : List (RangeMapEntry T)) (es' : List (RangeMapEntry U))
    (rs : List (RangeMapEntry (T × U))) : Prop where
  inv : EntriesInv rs
  fst : ∀ x, (entryValue rs x).map Prod.fst = entryValue es x
  snd : ∀ x, (entryValue rs x).map Prod.snd = entryValue es' x

variable {rs : List (RangeMapEntry (T × U))} {es' : List (RangeMapEntry U)} {es : List (RangeMapEntry T)}

theorem PairEntries.sameDomain (h : PairEntries es es' rs) : SameDomain es es' := by
  intro x
  rw [← h.fst, ← h.snd, Option.isSome_map, Option.isSome_map]

theorem SameDomain.nil_left (hinv : EntriesInv es')
    (h : SameDomain ([] : List (RangeMapEntry T)) es') : es' = [] := by
  cases es' with
  | nil => rfl
  | cons e' es' =>
    have hlower := h e'.lower
    rw [hinv.entryValue_lower] at hlower
    exact absurd hlower (by simp [entryValue])

section Step

variable {e : RangeMapEntry T} {es : List (RangeMapEntry T)} {e' : RangeMapEntry U}
  {es' : List (RangeMapEntry U)} (h : EntriesInv (e :: es)) (h' : EntriesInv (e' :: es'))

include h h'

theorem SameDomain.lower_eq (hsame : SameDomain (e :: es) (e' :: es')) : e.lower = e'.lower := by
  apply le_antisymm
  · refine h.lower_le ?_
    rw [hsame, h'.entryValue_lower]
    rfl
  · refine h'.lower_le ?_
    rw [← hsame, h.entryValue_lower]
    rfl

variable (hlower : e.lower = e'.lower)

include hlower

theorem lower_lt_min : e.lower < min e.upper e'.upper :=
  lt_min (h.pos e mem_cons_self) (hlower ▸ h'.pos e' mem_cons_self)

theorem SameDomain.remaining (hsame : SameDomain (e :: es) (e' :: es')) :
    SameDomain (remaining (min e.upper e'.upper) e es) (remaining (min e.upper e'.upper) e' es') := by
  intro x
  have hlt := lower_lt_min h h' hlower
  rw [h.entryValue_remaining hlt.le (min_le_left ..),
    h'.entryValue_remaining (hlower ▸ hlt.le) (min_le_right ..)]
  split
  · rfl
  · exact hsame x

variable
  (hrs : PairEntries (DistanceRangeMapImpl.remaining (min e.upper e'.upper) e es)
    (DistanceRangeMapImpl.remaining (min e.upper e'.upper) e' es') rs)

include hrs in
/-- The ranges of what remains do not continue the range of the round. -/
theorem PairEntries.cons_inv :
    EntriesInv (⟨e.lower, min e.upper e'.upper, (e.value, e'.value)⟩ :: rs) := by
  have hlt := lower_lt_min h h' hlower
  refine ⟨forall_mem_cons.mpr ⟨hlt, hrs.inv.pos⟩, isChain_cons.mpr ⟨fun r hr => ?_, hrs.inv.chain⟩⟩
  · obtain ⟨rs', rfl⟩ := head?_eq_some_iff.mp hr
    have hfst := hrs.fst r.lower
    have hsnd := hrs.snd r.lower
    rw [hrs.inv.entryValue_lower, h.entryValue_remaining hlt.le (min_le_left ..)] at hfst
    rw [hrs.inv.entryValue_lower, h'.entryValue_remaining (hlower ▸ hlt.le) (min_le_right ..)] at hsnd
    have hge : ¬ r.lower < min e.upper e'.upper := by
      intro hbelow
      rw [if_pos hbelow] at hfst
      exact absurd hfst (by simp)
    rw [if_neg hge] at hfst hsnd
    rcases (not_lt.mp hge).lt_or_eq with hgt | heq
    · exact .inl hgt
    · refine .inr ⟨heq, fun hsame => ?_⟩
      -- one of the two entries ends here, and its value with it
      rw [← heq, ← hsame] at hfst hsnd
      rcases min_choice e.upper e'.upper with hmin | hmin
      · rw [hmin] at hfst
        exact h.entryValue_upper_ne hfst.symm
      · rw [hmin] at hsnd
        exact h'.entryValue_upper_ne hsnd.symm

include hrs in
theorem PairEntries.cons :
    PairEntries (e :: es) (e' :: es') (⟨e.lower, min e.upper e'.upper, (e.value, e'.value)⟩ :: rs) := by
  have hlt := lower_lt_min h h' hlower
  have hinv := hrs.cons_inv h h' hlower
  let r : RangeMapEntry (T × U) := ⟨e.lower, min e.upper e'.upper, (e.value, e'.value)⟩
  have hbelow : ∀ x, x < min e.upper e'.upper →
      entryValue (r :: rs) x = if e.lower ≤ x then some (e.value, e'.value) else none :=
    fun x hx => hinv.entryValue_of_lt hx
  have habove : ∀ x, ¬ x < min e.upper e'.upper → entryValue (r :: rs) x = entryValue rs x :=
    fun x hx => @entryValue_of_le _ r rs x (not_lt.mp hx)
  refine ⟨hinv, fun x => ?_, fun x => ?_⟩
  · by_cases hx : x < min e.upper e'.upper
    · rw [hbelow x hx, h.entryValue_of_lt (hx.trans_le (min_le_left ..)), apply_ite (Option.map Prod.fst)]
      rfl
    · rw [habove x hx, hrs.fst, h.entryValue_remaining hlt.le (min_le_left ..), if_neg hx]
  · by_cases hx : x < min e.upper e'.upper
    · rw [hbelow x hx, h'.entryValue_of_lt (hx.trans_le (min_le_right ..)), ← hlower,
        apply_ite (Option.map Prod.snd)]
      rfl
    · rw [habove x hx, hrs.snd, h'.entryValue_remaining (hlower ▸ hlt.le) (min_le_right ..), if_neg hx]

end Step

/-- The sequence is complete exactly over one domain, and then pairs the two maps. -/
theorem commonEntries_spec : ∀ (es : List (RangeMapEntry T)) (es' : List (RangeMapEntry U)),
    EntriesInv es → EntriesInv es' → (SameDomain es es' →
      (commonEntries (fun lower upper t u => (⟨lower, upper, (t, u)⟩ : RangeMapEntry (T × U))) es
        es').isSome) ∧
    ∀ rs, commonEntries (fun lower upper t u => ⟨lower, upper, (t, u)⟩) es es' = some rs →
      PairEntries es es' rs
  | [], [], _, _ => by
    refine ⟨fun _ => rfl, fun rs hrs => ?_⟩
    obtain rfl : [] = rs := by simpa [commonEntries] using hrs
    exact ⟨⟨by simp, .nil⟩, fun _ => rfl, fun _ => rfl⟩
  | [], e' :: es', _, h' => by
    refine ⟨fun hsame => ?_, fun rs hrs => ?_⟩
    · exact absurd (hsame.nil_left h') (by simp)
    · exact absurd hrs (by simp [commonEntries])
  | e :: es, [], h, _ => by
    refine ⟨fun hsame => ?_, fun rs hrs => ?_⟩
    · have hsame' : SameDomain ([] : List (RangeMapEntry U)) (e :: es) := fun x => (hsame x).symm
      exact absurd (hsame'.nil_left h) (by simp)
    · exact absurd hrs (by simp [commonEntries])
  | e :: es, e' :: es', h, h' => by
    have hdecreasing := length_remaining_lt e es e' es'
    obtain ⟨ihsome, ihpair⟩ := commonEntries_spec _ _ (h.cut (min_le_left e.upper e'.upper))
      (h'.cut (min_le_right e.upper e'.upper))
    rw [commonEntries, commonRangesLoop_eq]
    refine ⟨fun hsame => ?_, fun rs hrs => ?_⟩
    · have hlower := hsame.lower_eq h h'
      rw [if_neg (not_not.mpr hlower), Option.map_eq_map, Option.isSome_map]
      exact ihsome (hsame.remaining h h' hlower)
    · by_cases hlower : e.lower = e'.lower
      · rw [if_neg (not_not.mpr hlower), Option.map_eq_map, Option.map_eq_some_iff] at hrs
        obtain ⟨rs', hrs', rfl⟩ := hrs
        exact (ihpair rs' hrs').cons h h' hlower
      · rw [if_pos hlower] at hrs
        exact absurd hrs (by simp)
termination_by es es' => es.length + es'.length

/-- A range over which the entries have one value is inside one of them. -/
theorem EntriesInv.exists_containing {v : T} {l u : Distance} (hlu : l < u) :
    ∀ {es : List (RangeMapEntry T)}, EntriesInv es →
    (∀ x, l ≤ x → x < u → entryValue es x = some v) → ∃ e ∈ es, e.lower ≤ l ∧ u ≤ e.upper
  | [], _, hconst => absurd (hconst l le_rfl hlu) (by simp [entryValue])
  | e :: es, h, hconst => by
    have hl := hconst l le_rfl hlu
    have hlower : e.lower ≤ l := h.lower_le (hl ▸ rfl)
    by_cases hupper : l < e.upper
    · refine ⟨e, mem_cons_self, hlower, ?_⟩
      -- otherwise the value would go on at the end of the entry
      by_contra hu
      have hvalue : e.value = v := by
        rw [h.entryValue_of_lt hupper, if_pos hlower] at hl
        exact some.inj hl
      exact h.entryValue_upper_ne (hvalue ▸ hconst e.upper hupper.le (not_le.mp hu))
    · have hle : e.upper ≤ l := not_lt.mp hupper
      obtain ⟨e', he', hin⟩ := h.tail.exists_containing hlu fun x hlx hxu => by
        rw [← entryValue_of_le (hle.trans hlx)]
        exact hconst x hlx hxu
      exact ⟨e', mem_cons_of_mem _ he', hin⟩

/-- Non-empty ranges in order, over exactly what the two maps both map, each with the one value that each
    map has on it. -/
structure CommonRanges (a : DistanceRangeMapImpl T) (b : DistanceRangeMapImpl U)
    (rs : List (RangeMapEntry (T × U))) : Prop where
  nonempty : ∀ r ∈ rs, r.lower < r.upper
  ordered : rs.Pairwise fun r r' => r.upper ≤ r'.lower
  covers : ∀ x, (∃ r ∈ rs, Covers r x) ↔ (a.valueOf x).isSome ∧ (b.valueOf x).isSome
  constant : ∀ r ∈ rs, ∀ x, Covers r x → a.valueOf x = some r.value.1 ∧ b.valueOf x = some r.value.2

section Maps

variable {a : DistanceRangeMapImpl T} {b : DistanceRangeMapImpl U} {es : List (RangeMapEntry T)}
  {es' : List (RangeMapEntry U)} (hes : a.toList = some es) (hes' : b.toList = some es')

include hes hes'

theorem PairEntries.commonRanges (h : PairEntries es es' rs) : CommonRanges a b rs := by
  have hvalue : ∀ x, a.valueOf x = (entryValue rs x).map Prod.fst := fun x => by
    rw [h.fst, valueOf, hes, getD_some]
  have hvalue' : ∀ x, b.valueOf x = (entryValue rs x).map Prod.snd := fun x => by
    rw [h.snd, valueOf, hes', getD_some]
  refine ⟨h.inv.pos, h.inv.pairwise, fun x => ?_, fun r hr x hcov => ?_⟩
  · rw [hvalue, hvalue', Option.isSome_map, Option.isSome_map, and_self, isSome_iff_exists]
    constructor
    · rintro ⟨r, hr, hcov⟩
      exact ⟨r.value, h.inv.entryValue_iff.mpr ⟨r, hr, hcov, rfl⟩⟩
    · rintro ⟨v, hv⟩
      obtain ⟨r, hr, hcov, -⟩ := h.inv.entryValue_iff.mp hv
      exact ⟨r, hr, hcov⟩
  · have hr : entryValue rs x = some r.value := h.inv.entryValue_iff.mpr ⟨r, hr, hcov, rfl⟩
    rw [hvalue, hvalue', hr]
    exact ⟨rfl, rfl⟩

/-- Every list of common ranges is finer than the entries of the pairs. -/
theorem PairEntries.coarsest {rs rs' : List (RangeMapEntry (T × U))} (h : PairEntries es es' rs)
    (hrs' : CommonRanges a b rs') {r' : RangeMapEntry (T × U)} (hr' : r' ∈ rs') :
    ∃ r ∈ rs, r.lower ≤ r'.lower ∧ r'.upper ≤ r.upper := by
  refine @EntriesInv.exists_containing _ r'.value _ _ (hrs'.nonempty r' hr') _ h.inv fun x hlx hxu => ?_
  obtain ⟨hfst, hsnd⟩ := hrs'.constant r' hr' x ⟨hlx, hxu⟩
  rw [valueOf, hes, getD_some, ← h.fst, Option.map_eq_some_iff] at hfst
  rw [valueOf, hes', getD_some, ← h.snd, Option.map_eq_some_iff] at hsnd
  obtain ⟨v, hv, hv1⟩ := hfst
  obtain ⟨w, hw, hw2⟩ := hsnd
  obtain rfl : v = w := some.inj (hv.symm.trans hw)
  rw [hv, ← Prod.eta v, hv1, hw2]

end Maps

/-- `commonRanges` can be consumed to its end exactly when the two maps have values at the same distances,
    and yields the coarsest ranges on which both are constant. -/
theorem commonRanges_coarsest {a : DistanceRangeMapImpl T} {b : DistanceRangeMapImpl U} (ha : a.RepInv)
    (hb : b.RepInv) : ((a.commonRanges b).isSome ↔ ∀ x, (a.valueOf x).isSome = (b.valueOf x).isSome) ∧
    ∀ rs, a.commonRanges b = some rs → CommonRanges a b rs ∧
      ∀ rs', CommonRanges a b rs' → ∀ r' ∈ rs', ∃ r ∈ rs, r.lower ≤ r'.lower ∧ r'.upper ≤ r.upper := by
  obtain ⟨es, hes, -, hinv, -⟩ := ha.entriesInv
  obtain ⟨es', hes', -, hinv', -⟩ := hb.entriesInv
  obtain ⟨hsome, hpair⟩ := commonEntries_spec es es' hinv hinv'
  have heq : a.commonRanges b = commonEntries (fun lower upper t u => ⟨lower, upper, (t, u)⟩) es es' := by
    rw [commonRanges, commonRangesWith, hes, hes']
    rfl
  have hdomain : (∀ x, (a.valueOf x).isSome = (b.valueOf x).isSome) ↔ SameDomain es es' := by
    simp only [valueOf, hes, hes', getD_some, SameDomain]
  rw [heq, hdomain]
  refine ⟨⟨fun h => ?_, hsome⟩, fun rs hrs => ⟨(hpair rs hrs).commonRanges hes hes', ?_⟩⟩
  · obtain ⟨rs, hrs⟩ := isSome_iff_exists.mp h
    exact (hpair rs hrs).sameDomain
  · intro rs' hrs' r' hr'
    exact (hpair rs hrs).coarsest hes hes' hrs' hr'

theorem commonRanges_coarsest_tenToTwenty :
    tenToTwenty.commonRanges tenToTwenty = some [⟨⟨10⟩, ⟨20⟩, (1, 1)⟩] ∧
      CommonRanges tenToTwenty tenToTwenty [⟨⟨10⟩, ⟨20⟩, (1, 1)⟩] := by
  have heq : tenToTwenty.commonRanges tenToTwenty = some [⟨⟨10⟩, ⟨20⟩, (1, 1)⟩] := by decide +kernel
  exact ⟨heq, ((commonRanges_coarsest tenToTwenty_repInv tenToTwenty_repInv).2 _ heq).1⟩

example : commonRanges (⟨[⟨0⟩, ⟨5⟩, ⟨9⟩], [some 1, some 2]⟩ : DistanceRangeMapImpl ℕ)
    (⟨[⟨0⟩, ⟨2⟩, ⟨9⟩], [some 420, some 69]⟩ : DistanceRangeMapImpl ℕ) =
      some [⟨⟨0⟩, ⟨2⟩, (1, 420)⟩, ⟨⟨2⟩, ⟨5⟩, (1, 69)⟩, ⟨⟨5⟩, ⟨9⟩, (2, 69)⟩] := by
  decide +kernel

/-! ### `fullyCovers` -/

theorem EntriesInv.isSome_of_covers {e : RangeMapEntry T}
    (h : EntriesInv (e :: es)) {x : Distance} (hlower : e.lower ≤ x) (hupper : x < e.upper) :
    (entryValue (e :: es) x).isSome := by
  rw [h.entryValue_of_lt hupper, if_pos hlower]
  rfl

/-- Once an entry above 0 has been seen, the loop asks for values from its end on. -/
theorem fullyCoversLoop_some {length : Distance} : ∀ {es : List (RangeMapEntry T)} {p : Distance},
    EntriesInv es → (∀ e ∈ es, p ≤ e.lower) → ⟨0⟩ < p → p < length →
    (fullyCoversLoop length (some p) es ↔ ∀ x, p ≤ x → x < length → (entryValue es x).isSome)
  | [], p, _, _, hp, hlength => by
    have hpos : ¬ length ≤ ⟨0⟩ := (hp.trans hlength).not_ge
    refine ⟨fun h => absurd h (by simpa [fullyCoversLoop] using hpos), fun h => ?_⟩
    exact absurd (h p le_rfl hlength) (by simp [entryValue])
  | e :: es, p, hinv, hge, hp, hlength => by
    have hlower : p ≤ e.lower := hge e mem_cons_self
    have hpos : e.lower < e.upper := hinv.pos e mem_cons_self
    have hupper : ¬ e.upper ≤ ⟨0⟩ := (hp.trans_le (hlower.trans hpos.le)).not_ge
    rw [fullyCoversLoop, if_neg hupper]
    by_cases heq : p = e.lower
    · rw [if_neg (by simpa using heq)]
      by_cases hend : length ≤ e.upper
      · rw [if_pos hend]
        refine ⟨fun _ x hpx hx => ?_, fun _ => rfl⟩
        exact hinv.isSome_of_covers (heq ▸ hpx) (hx.trans_le hend)
      · rw [if_neg hend, fullyCoversLoop_some hinv.tail hinv.head_le (not_le.mp hupper) (not_le.mp hend)]
        constructor
        · intro h x hpx hx
          by_cases hin : x < e.upper
          · exact hinv.isSome_of_covers (heq ▸ hpx) hin
          · rw [entryValue_of_le (not_lt.mp hin)]
            exact h x (not_lt.mp hin) hx
        · intro h x hux hx
          rw [← entryValue_of_le hux]
          exact h x (hlower.trans (hpos.le.trans hux)) hx
    · rw [if_pos (by simpa using heq)]
      refine ⟨fun h => absurd h (by simp), fun h => ?_⟩
      -- the gap starts at `p`
      exact absurd (le_antisymm hlower (hinv.lower_le (h p le_rfl hlength))) heq

/-- The loop looks for a first distance above 0 with a value, and asks for values from there on. -/
theorem fullyCoversLoop_none {length : Distance} : ∀ {es : List (RangeMapEntry T)}, EntriesInv es →
    (fullyCoversLoop length none es ↔ length ≤ ⟨0⟩ ∨ (∃ d, ⟨0⟩ ≤ d ∧ (entryValue es d).isSome) ∧
      ∀ d₁ d₂, ⟨0⟩ ≤ d₁ → d₁ ≤ d₂ → d₂ < length → (entryValue es d₁).isSome → (entryValue es d₂).isSome)
  | [], _ => by simp [fullyCoversLoop, entryValue]
  | e :: es, hinv => by
    rw [fullyCoversLoop]
    by_cases hupper : e.upper ≤ ⟨0⟩
    · rw [if_pos hupper, fullyCoversLoop_none hinv.tail]
      have hsame : ∀ d, ⟨0⟩ ≤ d → entryValue (e :: es) d = entryValue es d :=
        fun d hd => entryValue_of_le (hupper.trans hd)
      refine or_congr_right (and_congr (exists_congr fun d => and_congr_right fun hd => ?_) ?_)
      · rw [hsame d hd]
      · refine forall₂_congr fun d₁ d₂ => forall₂_congr fun hd₁ hle => ?_
        rw [hsame d₁ hd₁, hsame d₂ (hd₁.trans hle)]
    · have hpos : e.lower < e.upper := hinv.pos e mem_cons_self
      have hstart : (entryValue (e :: es) (max e.lower ⟨0⟩)).isSome :=
        hinv.isSome_of_covers (le_max_left ..) (max_lt hpos (not_le.mp hupper))
      rw [if_neg hupper, if_neg (by simp)]
      by_cases hend : length ≤ e.upper
      · rw [if_pos hend]
        refine ⟨fun _ => .inr ⟨⟨_, le_max_right .., hstart⟩, ?_⟩, fun _ => rfl⟩
        intro d₁ d₂ _ hle hlt h₁
        exact hinv.isSome_of_covers ((hinv.lower_le h₁).trans hle) (hlt.trans_le hend)
      · have hlength : ¬ length ≤ ⟨0⟩ := ((not_le.mp hupper).trans (not_le.mp hend)).not_ge
        rw [if_neg hend, fullyCoversLoop_some hinv.tail hinv.head_le (not_le.mp hupper) (not_le.mp hend)]
        constructor
        · intro h
          refine .inr ⟨⟨_, le_max_right .., hstart⟩, fun d₁ d₂ _ hle hlt h₁ => ?_⟩
          by_cases hin : d₂ < e.upper
          · exact hinv.isSome_of_covers ((hinv.lower_le h₁).trans hle) hin
          · rw [entryValue_of_le (not_lt.mp hin)]
            exact h d₂ (not_lt.mp hin) hlt
        · intro h x hx hlt
          obtain ⟨-, hclosed⟩ := h.resolve_left hlength
          rw [← entryValue_of_le hx]
          exact hclosed _ x (le_max_right ..) ((max_lt hpos (not_le.mp hupper)).le.trans hx) hlt hstart

/-- `fullyCovers` answers for `[0, length)` exactly when the map has a value at 0, or has nothing from 0 on,
    or has a gap below `length` after its first value from 0 on: it does not ask where the first entry
    starts. -/
theorem fullyCovers_iff {m : DistanceRangeMapImpl T} (h : m.RepInv) (length : Distance) :
    (m.fullyCovers length = some true ↔ ∀ d, ⟨0⟩ ≤ d → d < length → (m.valueOf d).isSome) ↔
      length ≤ ⟨0⟩ ∨ (m.valueOf ⟨0⟩).isSome ∨ (∀ d, ⟨0⟩ ≤ d → ¬ (m.valueOf d).isSome) ∨
        ∃ d₁ d₂, ⟨0⟩ ≤ d₁ ∧ d₁ < d₂ ∧ d₂ < length ∧ (m.valueOf d₁).isSome ∧ ¬ (m.valueOf d₂).isSome := by
  obtain ⟨es, hes, -, hinv, -⟩ := h.entriesInv
  have hvalue : ∀ d, m.valueOf d = entryValue es d := fun d => by rw [valueOf, hes, getD_some]
  simp only [fullyCovers, hes, map_some, some.injEq, hvalue]
  rw [fullyCoversLoop_none hinv]
  by_cases hlength : length ≤ ⟨0⟩
  · refine iff_of_true (iff_of_true (.inl hlength) fun d hd hlt => ?_) (.inl hlength)
    exact absurd (hlt.trans_le hlength) hd.not_gt
  have hpos : ⟨0⟩ < length := not_le.mp hlength
  simp only [hlength, false_or]
  constructor
  · intro hiff
    by_contra hcond
    simp only [not_or, not_forall, not_exists, not_and, not_not] at hcond
    obtain ⟨h0, ⟨d, hd, hmapped⟩, hclosed⟩ := hcond
    refine h0 (hiff.mp ⟨⟨d, hd, hmapped⟩, fun d₁ d₂ hd₁ hle hlt h₁ => ?_⟩ _ le_rfl hpos)
    rcases hle.lt_or_eq with hlt₁₂ | rfl
    · exact hclosed d₁ d₂ hd₁ hlt₁₂ hlt h₁
    · exact h₁
  · rintro (h0 | hnone | ⟨d₁, d₂, hd₁, hlt₁₂, hlt, h₁, h₂⟩)
    · refine ⟨fun hcode d hd hlt => hcode.2 _ d le_rfl hd hlt h0, fun hall => ?_⟩
      exact ⟨⟨_, le_rfl, h0⟩, fun d₁ d₂ hd₁ hle hlt _ => hall d₂ (hd₁.trans hle) hlt⟩
    · refine iff_of_false (fun hcode => ?_) fun hall => hnone _ le_rfl (hall _ le_rfl hpos)
      obtain ⟨d, hd, hmapped⟩ := hcode.1
      exact hnone d hd hmapped
    · refine iff_of_false (fun hcode => h₂ (hcode.2 d₁ d₂ hd₁ hlt₁₂.le hlt h₁)) fun hall => ?_
      exact h₂ (hall d₂ (hd₁.trans hlt₁₂.le) hlt)

theorem fullyCovers_iff_tenToTwenty : tenToTwenty.RepInv ∧ (tenToTwenty.fullyCovers ⟨30⟩ = some true ↔
        ∀ d, ⟨0⟩ ≤ d → d < ⟨30⟩ → (tenToTwenty.valueOf d).isSome) :=
  ⟨tenToTwenty_repInv, (fullyCovers_iff tenToTwenty_repInv ⟨30⟩).mpr
    (.inr (.inr (.inr ⟨⟨10⟩, ⟨20⟩, by decide +kernel⟩)))⟩

/-- The map has no value below 10. -/
theorem fullyCovers_gap_at_zero :
    tenToTwenty.RepInv ∧ tenToTwenty.fullyCovers ⟨20⟩ = some true ∧ tenToTwenty.valueOf ⟨0⟩ = none :=
  ⟨tenToTwenty_repInv, by decide +kernel⟩

end DistanceRangeMapImpl

end Osrd.RangeMap
