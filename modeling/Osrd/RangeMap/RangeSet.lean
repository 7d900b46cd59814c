import Osrd.RangeMap.Runs

/-! Model of `DistanceRangeSetImpl` (`core/osrd-mp/.../utils/DistanceRangeSetImpl.kt`): a set of distances
    kept as a range map to booleans.

    `remove` writes `false`, it does not erase. `asList` hides the ranges with `false`, and `contains` asks
    the map: at the upper end of an entry, a range with `false` that starts there answers, and without one
    the entry itself does. So the entries alone do not say what the set contains at their upper ends. -/

namespace Osrd.RangeMap

open Option

/-- One range of the set. -/
structure RangeSetEntry where
  lower : Distance
  upper : Distance
  deriving DecidableEq

structure DistanceRangeSetImpl where
  map : DistanceRangeMapImpl Bool
  deriving DecidableEq

namespace DistanceRangeSetImpl

open DistanceRangeMapImpl (valueOf valueEndingAt)

/-! ### The class -/

def empty : DistanceRangeSetImpl := ⟨DistanceRangeMapImpl.empty⟩

variable (s : DistanceRangeSetImpl)

def put (lower upper : Distance) : Option DistanceRangeSetImpl :=
  (s.map.put lower upper true).map mk

def remove (lower upper : Distance) : Option DistanceRangeSetImpl :=
  (s.map.put lower upper false).map mk

/-- The entries of the map with the value `true`. -/
def asList : Option (List RangeSetEntry) :=
  s.map.toList.map fun entries => (entries.filter (·.value)).map fun entry => ⟨entry.lower, entry.upper⟩

def truncate (beginOffset endOffset : Distance) : Option DistanceRangeSetImpl :=
  (s.map.truncate beginOffset endOffset).map mk

def shiftPositions (offset : Distance) : DistanceRangeSetImpl :=
  ⟨s.map.shiftPositions offset⟩

/-- `map.get(offset) ?: false`. -/
def contains (offset : Distance) : Option Bool :=
  (s.map.get offset).map (·.getD false)

/-! ### The sets that calls can build -/

/-- The sets built by calls on an initially empty set, no shift leaving the 64-bit range. -/
inductive Built : DistanceRangeSetImpl → Prop
  | empty : Built empty
  | put {s s' : DistanceRangeSetImpl} {lower upper : Distance} (h : Built s) (hlt : lower < upper)
      (hs' : s.put lower upper = some s') : Built s'
  | remove {s s' : DistanceRangeSetImpl} {lower upper : Distance} (h : Built s) (hlt : lower < upper)
      (hs' : s.remove lower upper = some s') : Built s'
  | truncate {s s' : DistanceRangeSetImpl} {beginOffset endOffset : Distance} (h : Built s)
      (hlt : beginOffset < endOffset) (hs' : s.truncate beginOffset endOffset = some s') : Built s'
  | shiftPositions {s : DistanceRangeSetImpl} {offset : Distance} (h : Built s)
      (hrange : s.map.ShiftInRange offset) : Built (s.shiftPositions offset)

/-- The calls on the set are calls on its map. -/
theorem Built.map {s : DistanceRangeSetImpl} (h : Built s) : s.map.Built := by
  induction h with
  | empty => exact .empty
  | put _ hlt hs' ih =>
    obtain ⟨m, hm, rfl⟩ := map_eq_some_iff.mp hs'
    exact ih.put hlt.le hm
  | remove _ hlt hs' ih =>
    obtain ⟨m, hm, rfl⟩ := map_eq_some_iff.mp hs'
    exact ih.put hlt.le hm
  | truncate _ _ hs' ih =>
    obtain ⟨m, hm, rfl⟩ := map_eq_some_iff.mp hs'
    exact ih.truncate hm
  | shiftPositions _ hrange ih => exact ih.shiftPositions hrange

/-! ### What the entries say -/

section Entries

variable {s : DistanceRangeSetImpl} (h : s.map.RepInv)

include h

theorem asList_isSome : s.asList.isSome := by
  obtain ⟨es, hes, -⟩ := h.entriesInv
  rw [asList, hes]
  rfl

variable {entries : List RangeSetEntry} (hentries : s.asList = some entries)

include hentries

/-- The distances inside an entry are those with the value `true`. -/
theorem valueOf_true_iff (x : Distance) :
    s.map.valueOf x = some true ↔ ∃ e ∈ entries, e.lower ≤ x ∧ x < e.upper := by
  obtain ⟨es, hes, -, hinv, -⟩ := h.entriesInv
  rw [asList, hes, map_some, some.injEq] at hentries
  rw [valueOf, hes, getD_some, hinv.entryValue_iff, ← hentries]
  simp only [List.mem_map, List.mem_filter]
  constructor
  · rintro ⟨e, he, hcov, htrue⟩
    exact ⟨_, ⟨e, ⟨he, htrue⟩, rfl⟩, hcov⟩
  · rintro ⟨_, ⟨e, ⟨he, htrue⟩, rfl⟩, hcov⟩
    exact ⟨e, he, hcov, htrue⟩

theorem valueEndingAt_true_iff (x : Distance) :
    s.map.valueEndingAt x = some true ↔ ∃ e ∈ entries, e.upper = x := by
  obtain ⟨es, hes, -, hinv, -⟩ := h.entriesInv
  rw [asList, hes, map_some, some.injEq] at hentries
  rw [valueEndingAt, hes, getD_some, hinv.find?_upper_iff, ← hentries]
  simp only [List.mem_map, List.mem_filter]
  constructor
  · rintro ⟨e, he, hend, htrue⟩
    exact ⟨_, ⟨e, ⟨he, htrue⟩, rfl⟩, hend⟩
  · rintro ⟨_, ⟨e, ⟨he, htrue⟩, rfl⟩, hend⟩
    exact ⟨e, he, hend, htrue⟩

/-- The set contains the insides of its entries, and their upper ends where no removed range starts. -/
theorem contains_iff (x : Distance) :
    s.contains x = some true ↔ (∃ e ∈ entries, e.lower ≤ x ∧ x < e.upper) ∨
      (∃ e ∈ entries, e.upper = x) ∧ s.map.valueOf x ≠ some false := by
  rw [← valueOf_true_iff h hentries, ← valueEndingAt_true_iff h hentries, contains, h.get_eq]
  rcases s.map.valueOf x with - | - | -
  · rcases s.map.valueEndingAt x with - | - | - <;> simp
  · simp
  · simp

end Entries

theorem contains_isSome {s : DistanceRangeSetImpl} (h : s.map.RepInv) (x : Distance) :
    (s.contains x).isSome := by
  rw [contains, h.get_eq]
  rfl

/-- Two sets built by calls, with the same entries: they contain the same distances exactly when, at the
    upper end of each entry, a removed range starts in both maps or in none. -/
theorem contains_eq_iff {s t : DistanceRangeSetImpl} (hs : Built s) (ht : Built t) :
    (s.asList = t.asList → ∀ x, s.contains x = t.contains x) ↔
      ∀ entries, s.asList = some entries → t.asList = some entries → ∀ e ∈ entries,
        (s.map.valueOf e.upper = some false ↔ t.map.valueOf e.upper = some false) := by
  have hinv := hs.map.repInv
  have hinv' := ht.map.repInv
  have heq : ∀ x, s.contains x = t.contains x ↔ (s.contains x = some true ↔ t.contains x = some true) := by
    intro x
    obtain ⟨b, hb⟩ := isSome_iff_exists.mp (contains_isSome hinv x)
    obtain ⟨b', hb'⟩ := isSome_iff_exists.mp (contains_isSome hinv' x)
    rw [hb, hb', some.injEq, some.injEq, some.injEq, Bool.eq_iff_iff]
  constructor
  · intro hsame entries hlist hlist' e he
    -- at the upper end of an entry only a removed range says no
    have hend : ∀ s' : DistanceRangeSetImpl, s'.map.RepInv → s'.asList = some entries →
        (s'.contains e.upper = some true ↔ s'.map.valueOf e.upper ≠ some false) := by
      intro s' h' hentries
      rw [contains_iff h' hentries]
      constructor
      · rintro (hin | ⟨-, hne⟩)
        · rw [(valueOf_true_iff h' hentries _).mpr hin]
          simp
        · exact hne
      · exact fun hne => .inr ⟨⟨e, he, rfl⟩, hne⟩
    have hcontains := (heq e.upper).mp (hsame (hlist.trans hlist'.symm) e.upper)
    rw [hend s hinv hlist, hend t hinv' hlist'] at hcontains
    exact not_iff_not.mp hcontains
  · intro hcond hlists x
    obtain ⟨entries, hlist⟩ := isSome_iff_exists.mp (asList_isSome hinv)
    have hlist' : t.asList = some entries := hlists ▸ hlist
    rw [heq, contains_iff hinv hlist, contains_iff hinv' hlist']
    refine or_congr_right (and_congr_right ?_)
    rintro ⟨e, he, rfl⟩
    exact not_congr (hcond entries hlist hlist' e he)

/-- The range `[0, 10)`, and the same one with a removed range further on. -/
theorem contains_eq_iff_put_remove :
    let s : DistanceRangeSetImpl := ⟨⟨[⟨0⟩, ⟨10⟩], [some true]⟩⟩
    let t : DistanceRangeSetImpl := ⟨⟨[⟨0⟩, ⟨10⟩, ⟨20⟩, ⟨30⟩], [some true, none, some false]⟩⟩
    Built s ∧ Built t ∧ ∀ x, s.contains x = t.contains x := by
  intro s t
  have hs : Built s := @Built.put _ _ ⟨0⟩ ⟨10⟩ .empty (by decide +kernel) (by decide +kernel)
  have ht : Built t := @Built.remove _ _ ⟨20⟩ ⟨30⟩ hs (by decide +kernel) (by decide +kernel)
  have hlist : s.asList = some [⟨⟨0⟩, ⟨10⟩⟩] := by decide +kernel
  refine ⟨hs, ht, (contains_eq_iff hs ht).mpr (fun entries hentries _ => ?_) (by decide +kernel)⟩
  cases hlist.symm.trans hentries
  decide +kernel

/-- After `put(0, 10)`, a call `remove(10, 20)` changes no entry, but 10 is no longer contained. -/
theorem contains_after_remove : ∃ s t : DistanceRangeSetImpl, empty.put ⟨0⟩ ⟨10⟩ = some s ∧
    s.remove ⟨10⟩ ⟨20⟩ = some t ∧ s.asList = some [⟨⟨0⟩, ⟨10⟩⟩] ∧ t.asList = some [⟨⟨0⟩, ⟨10⟩⟩] ∧
    s.contains ⟨10⟩ = some true ∧ t.contains ⟨10⟩ = some false :=
  ⟨⟨⟨[⟨0⟩, ⟨10⟩], [some true]⟩⟩, ⟨⟨[⟨0⟩, ⟨10⟩, ⟨20⟩], [some true, some false]⟩⟩, by decide +kernel⟩

end DistanceRangeSetImpl

end Osrd.RangeMap
