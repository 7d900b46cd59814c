import Osrd.RangeMap.Updates

/-! Every map the public mutations can build satisfies the representation invariant.

    `Built` follows the calls from the empty map on. The maps given to `updateMap` and
    `updateMapIntersection` are themselves built that way. The one arithmetic of the class is the addition
    of `shiftPositions`: it wraps around, so its calls are those that keep the bounds in the 64-bit range. -/

namespace Osrd.RangeMap

namespace DistanceRangeMapImpl

/-! ### All the calls -/

/-- The maps built by calls on an initially empty map. -/
inductive Built : {T : Type} → [DecidableEq T] → DistanceRangeMapImpl T → Prop
  | empty {T : Type} [DecidableEq T] : Built (empty : DistanceRangeMapImpl T)
  | put {T : Type} [DecidableEq T] {m m' : DistanceRangeMapImpl T} {lower upper : Distance}
      {value : T} (h : Built m) (hle : lower ≤ upper) (hm' : m.put lower upper value = some m') :
      Built m'
  | putMany {T : Type} [DecidableEq T] {m m' : DistanceRangeMapImpl T}
      {entries : List (RangeMapEntry T)} (h : Built m) (hm' : m.putMany entries = some m') :
      Built m'
  | truncate {T : Type} [DecidableEq T] {m m' : DistanceRangeMapImpl T}
      {beginOffset endOffset : Distance} (h : Built m)
      (hm' : m.truncate beginOffset endOffset = some m') : Built m'
  | shiftPositions {T : Type} [DecidableEq T] {m : DistanceRangeMapImpl T} {offset : Distance}
      (h : Built m) (hrange : m.ShiftInRange offset) : Built (m.shiftPositions offset)
  | updateMap {T : Type} [DecidableEq T] {m m' update : DistanceRangeMapImpl T}
      {updateFunction : T → T → T} {default : T → T} (h : Built m) (hu : Built update)
      (hm' : m.updateMap update updateFunction default = some m') : Built m'
  | updateMapIntersection {T U : Type} [DecidableEq T] [DecidableEq U]
      {m m' : DistanceRangeMapImpl T} {update : DistanceRangeMapImpl U}
      {updateFunction : T → U → T} (h : Built m) (hu : Built update)
      (hm' : m.updateMapIntersection update updateFunction = some m') : Built m'
  | clear {T : Type} [DecidableEq T] {m : DistanceRangeMapImpl T} (h : Built m) : Built m.clear

variable {T : Type}

/-- Each call keeps the invariant, so every run of calls does. -/
theorem Built.repInv [DecidableEq T] {m : DistanceRangeMapImpl T} (h : Built m) : m.RepInv := by
  induction h with
  | empty => exact .inl ⟨rfl, rfl⟩
  | put _ hle hm' ih => exact (ih.put_spec hle _).repInv hm'
  | putMany _ hm' ih => exact (ih.putMany_spec _).repInv hm'
  | truncate _ hm' ih => exact (ih.truncate_spec _ _).repInv hm'
  | shiftPositions _ hrange ih => exact ih.shiftPositions hrange
  | updateMap _ _ hm' ih ihu => exact (ih.updateMap_value ihu _ _).repInv hm'
  | updateMapIntersection _ _ hm' ih ihu => exact (ih.updateMapIntersection_value ihu _).repInv hm'
  | clear _ _ => exact .inl ⟨rfl, rfl⟩

/-- The call throws nothing and leaves a built map. -/
def Returns [DecidableEq T] (call : Option (DistanceRangeMapImpl T)) : Prop :=
  ∃ m', call = some m' ∧ Built m'

/-- After any run of calls the representation invariant holds, and the next call returns. -/
theorem built_repInv_and_returns [DecidableEq T] {m : DistanceRangeMapImpl T} (h : Built m) :
    m.RepInv ∧ (∀ lower upper value, lower ≤ upper → Returns (m.put lower upper value)) ∧
      (∀ entries, Returns (m.putMany entries)) ∧
      (∀ beginOffset endOffset, Returns (m.truncate beginOffset endOffset)) ∧
      (∀ update updateFunction default, Built update → Returns (m.updateMap update updateFunction default)) ∧
      ∀ (U : Type) [DecidableEq U] (update : DistanceRangeMapImpl U) updateFunction,
        Built update → Returns (m.updateMapIntersection update updateFunction) := by
  refine ⟨h.repInv, ?_, ?_, ?_, ?_, ?_⟩
  · intro lower upper value hle
    obtain ⟨m', hm', -⟩ := h.repInv.put_spec hle value
    exact ⟨m', hm', h.put hle hm'⟩
  · intro entries
    obtain ⟨m', hm', -⟩ := h.repInv.putMany_spec entries
    exact ⟨m', hm', h.putMany hm'⟩
  · intro beginOffset endOffset
    obtain ⟨m', hm', -⟩ := h.repInv.truncate_spec beginOffset endOffset
    exact ⟨m', hm', h.truncate hm'⟩
  · intro update updateFunction default hu
    obtain ⟨m', hm', -⟩ := h.repInv.updateMap_value hu.repInv updateFunction default
    exact ⟨m', hm', h.updateMap hu hm'⟩
  · intro U _ update updateFunction hu
    obtain ⟨m', hm', -⟩ := h.repInv.updateMapIntersection_value hu.repInv updateFunction
    exact ⟨m', hm', h.updateMapIntersection hu hm'⟩

/-- `put(0, 10, 1)`, a shift by 5 and `truncate(7, 12)` leave value 1 on `[7, 12)`. -/
theorem built_repInv_and_returns_example :
    (⟨[⟨7⟩, ⟨12⟩], [some 1]⟩ : DistanceRangeMapImpl ℕ).RepInv := by
  have hput : (empty : DistanceRangeMapImpl ℕ).put ⟨0⟩ ⟨10⟩ 1 = some ⟨[⟨0⟩, ⟨10⟩], [some 1]⟩ := by
    decide +kernel
  have hshift : Built (⟨[⟨5⟩, ⟨15⟩], [some 1]⟩ : DistanceRangeMapImpl ℕ) :=
    @Built.shiftPositions _ _ _ ⟨5⟩ (Built.empty.put (by decide +kernel) hput) (by decide +kernel)
  have htruncate := @Built.truncate _ _ _ ⟨[⟨7⟩, ⟨12⟩], [some 1]⟩ ⟨7⟩ ⟨12⟩ hshift (by decide +kernel)
  exact (built_repInv_and_returns htruncate).1

/-- `put(0, 1, 1)` and a shift by the largest `Long`: the upper bound wraps around. -/
theorem shiftPositions_overflow :
    (empty : DistanceRangeMapImpl ℕ).put ⟨0⟩ ⟨1⟩ 1 = some ⟨[⟨0⟩, ⟨1⟩], [some 1]⟩ ∧
      ¬ (shiftPositions (⟨[⟨0⟩, ⟨1⟩], [some 1]⟩ : DistanceRangeMapImpl ℕ) ⟨Int64.maxValue⟩).RepInv := by
  refine ⟨by decide +kernel, ?_⟩
  rintro (⟨hb, -⟩ | ⟨hsorted, -⟩)
  · exact absurd hb (by decide +kernel)
  · exact absurd hsorted (by decide +kernel)

/-! ### The operations, distance by distance -/

/-- After any run of calls: `put` writes its range and nothing else, `truncate` and `subMap` keep what is
    between the two distances, and `get` reads the value at the distance, or else the one that ends
    there. -/
theorem built_values [DecidableEq T] {m : DistanceRangeMapImpl T} (h : Built m) :
    (∀ lower upper v, lower < upper → ∃ m', m.put lower upper v = some m' ∧
      ∀ x, m'.valueOf x = if lower ≤ x ∧ x < upper then some v else m.valueOf x) ∧
    (∀ beginOffset endOffset, beginOffset < endOffset → ∃ m', m.truncate beginOffset endOffset = some m' ∧
      ∀ x, m'.valueOf x = if beginOffset ≤ x ∧ x < endOffset then m.valueOf x else none) ∧
    (∀ lower upper, lower < upper → ∃ m', m.subMap lower upper = some m' ∧
      ∀ x, m'.valueOf x = if lower ≤ x ∧ x < upper then m.valueOf x else none) ∧
    ∀ x, m.get x = some ((m.valueOf x).or (m.valueEndingAt x)) := by
  have hinv := h.repInv
  simp only [hinv.valueOf_eq]
  refine ⟨?_, ?_, ?_, fun x => hinv.valueOf_eq x ▸ hinv.get_eq x⟩
  · intro lower upper v hlu
    exact (hinv.putOptional_lt hlu (some v)).valueOf
  · intro beginOffset endOffset _
    exact (hinv.truncate_spec beginOffset endOffset).valueOf
  · intro lower upper hlu
    exact (hinv.subMap_spec hlu).valueOf

/-- On the map with value 1 on `[10, 20)`, as `put` builds it. -/
theorem built_values_tenToTwenty : (empty : DistanceRangeMapImpl ℕ).put ⟨10⟩ ⟨20⟩ 1 = some tenToTwenty ∧
      tenToTwenty.get ⟨20⟩ = some ((tenToTwenty.valueOf ⟨20⟩).or (tenToTwenty.valueEndingAt ⟨20⟩)) := by
  have hput : (empty : DistanceRangeMapImpl ℕ).put ⟨10⟩ ⟨20⟩ 1 = some tenToTwenty := by decide +kernel
  exact ⟨hput, (built_values (Built.empty.put (by decide +kernel) hput)).2.2.2 ⟨20⟩⟩

/-- A range put the wrong way round, and a shift that wraps around: the bounds are not in order, and the next
    `put` writes elsewhere. -/
theorem put_values_unordered :
    (∃ m m' : DistanceRangeMapImpl ℕ, empty.put ⟨10⟩ ⟨5⟩ 1 = some m ∧ m.put ⟨7⟩ ⟨20⟩ 2 = some m' ∧
      m.valueOf ⟨6⟩ = none ∧ m'.valueOf ⟨6⟩ = some 2) ∧
    ∃ m m' : DistanceRangeMapImpl ℕ, empty.put ⟨0⟩ ⟨1⟩ 1 = some m ∧
      (m.shiftPositions ⟨Int64.maxValue⟩).put ⟨5⟩ ⟨10⟩ 2 = some m' ∧ m'.valueOf ⟨7⟩ = none := by
  refine ⟨⟨⟨[⟨10⟩, ⟨5⟩], [some 1]⟩, ⟨[⟨5⟩, ⟨20⟩], [some 2]⟩, ?_⟩,
    ⟨⟨[⟨0⟩, ⟨1⟩], [some 1]⟩, ⟨[⟨10⟩, ⟨Int64.maxValue⟩, ⟨Int64.minValue⟩], [some 2, some 1]⟩, ?_⟩⟩
  · decide +kernel
  · decide +kernel

/-! ### Maps and their entries -/

def distanceRangeMapOf [DecidableEq T] : List (RangeMapEntry T) → Option (DistanceRangeMapImpl T) :=
  empty.putMany

/-- A map is what its entries make, and equal to each map with its values. -/
theorem built_eq_iff [DecidableEq T] {m : DistanceRangeMapImpl T} (h : Built m) :
    m.toList.bind distanceRangeMapOf = some m ∧ ∀ m', Built m' →
      (m = m' ↔ ∀ x, m.valueOf x = m'.valueOf x) := by
  have hinv := h.repInv
  constructor
  · obtain ⟨es, hlist, -, -, hoverlay⟩ := hinv.entriesInv
    rw [hlist]
    exact ((Built.empty.repInv.putMany_spec es).congr hoverlay).eq_some hinv
  · refine fun m' h' => ⟨fun heq _ => heq ▸ rfl, fun heq => hinv.ext h'.repInv fun x => ?_⟩
    rw [← hinv.valueOf_eq, heq, h'.repInv.valueOf_eq]

theorem built_eq_iff_tenToTwenty : tenToTwenty.toList.bind distanceRangeMapOf = some tenToTwenty := by
  have hput : empty.put ⟨10⟩ ⟨20⟩ 1 = some tenToTwenty := by decide +kernel
  exact (built_eq_iff (Built.empty.put (by decide +kernel) hput)).1

end DistanceRangeMapImpl

end Osrd.RangeMap
