import Mathlib.Data.Finmap
import Mathlib.Data.Finset.Sort

/-! Finite maps whose entries are visited in the order of their keys, and the difference of two of them. -/

namespace Containers

abbrev OrdMap (K V : Type) := Finmap fun _ : K => V

/-- One difference between two maps. -/
inductive DiffItem (K V : Type)
  | add (key : K) (value : V)
  | update (old new : K × V)
  | remove (key : K) (value : V)
deriving DecidableEq

/-- The key and its new value. -/
def DiffItem.change {K V : Type} : DiffItem K V → K × Option V
  | .add key value => (key, some value)
  | .update old new => (old.1, some new.2)
  | .remove key _ => (key, none)

namespace OrdMap

variable {K V : Type}

def diffItem [DecidableEq V] (key : K) : Option V → Option V → Option (DiffItem K V)
  | none, none => none
  | none, some new => some (.add key new)
  | some old, some new => if old = new then none else some (.update (key, old) (key, new))
  | some old, none => some (.remove key old)

theorem map_change_diffItem [DecidableEq V] (key : K) (old new : Option V) :
    (diffItem key old new).map DiffItem.change = if old = new then none else some (key, new) := by
  cases old with
  | none => cases new <;> rfl
  | some old =>
    cases new with
    | none => rfl
    | some new =>
      simp only [diffItem, Option.some.injEq]
      split <;> rfl

variable [LinearOrder K]

/-- The entries in the order of their keys. -/
def iter (m : OrdMap K V) : List (K × V) :=
  m.keys.sort.filterMap fun k => (m.lookup k).map (k, ·)

/-- The differences in the order of their keys. -/
def sortedDiff [DecidableEq V] (m m' : OrdMap K V) : List (DiffItem K V) :=
  (m.keys ∪ m'.keys).sort.filterMap fun k => diffItem k (m.lookup k) (m'.lookup k)

theorem mem_iter {m : OrdMap K V} {k : K} {v : V} : (k, v) ∈ m.iter ↔ m.lookup k = some v := by
  simp only [iter, List.mem_filterMap, Finset.mem_sort, Finmap.mem_keys, Option.map_eq_some_iff,
    Prod.mk.injEq]
  constructor
  · rintro ⟨k', -, v', hv, rfl, rfl⟩
    exact hv
  · intro hv
    exact ⟨k, Finmap.mem_of_lookup_eq_some hv, v, hv, rfl, rfl⟩

variable [DecidableEq V]

theorem map_change_sortedDiff (m m' : OrdMap K V) : (m.sortedDiff m').map DiffItem.change =
    (m.keys ∪ m'.keys).sort.filterMap fun k =>
      if m.lookup k = m'.lookup k then none else some (k, m'.lookup k) := by
  simp only [sortedDiff, List.map_filterMap, map_change_diffItem]

theorem mem_map_change_sortedDiff {m m' : OrdMap K V} {c : K × Option V} :
    c ∈ (m.sortedDiff m').map DiffItem.change ↔ m.lookup c.1 ≠ m'.lookup c.1 ∧ c.2 = m'.lookup c.1 := by
  obtain ⟨k, v⟩ := c
  simp only [map_change_sortedDiff, List.mem_filterMap, Finset.mem_sort, Finset.mem_union,
    Finmap.mem_keys, Option.ite_none_left_eq_some, Option.some.injEq, Prod.mk.injEq]
  constructor
  · rintro ⟨k', -, hne, rfl, rfl⟩
    exact ⟨hne, rfl⟩
  · rintro ⟨hne, rfl⟩
    refine ⟨k, ?_, hne, rfl, rfl⟩
    by_contra hmem
    obtain ⟨hm, hm'⟩ := not_or.mp hmem
    rw [Finmap.lookup_eq_none.mpr hm, Finmap.lookup_eq_none.mpr hm'] at hne
    exact hne rfl

theorem map_change_sortedDiff_nodup (m m' : OrdMap K V) :
    (((m.sortedDiff m').map DiffItem.change).map Prod.fst).Nodup := by
  have hkeys : ((m.sortedDiff m').map DiffItem.change).map Prod.fst =
      (m.keys ∪ m'.keys).sort.filter fun k => m.lookup k ≠ m'.lookup k := by
    rw [map_change_sortedDiff, List.map_filterMap, ← List.filterMap_eq_filter]
    congr 1
    funext k
    by_cases h : m.lookup k = m'.lookup k <;> simp [h, Option.guard]
  rw [hkeys]
  exact (Finset.sort_nodup _ _).filter _

end OrdMap

/-- The differences between two maps, in any order. -/
structure Diff (K V : Type) [DecidableEq K] where
  diff : OrdMap K V → OrdMap K V → List (DiffItem K V)
  /-- The changes are the keys with different values, each with its new value. -/
  mem_change : ∀ {m m' : OrdMap K V} {c}, c ∈ (diff m m').map DiffItem.change ↔
    m.lookup c.1 ≠ m'.lookup c.1 ∧ c.2 = m'.lookup c.1
  /-- Each key changes once. -/
  nodup : ∀ m m', (((diff m m').map DiffItem.change).map Prod.fst).Nodup

/-- The differences in the order of their keys. -/
def Diff.sorted {K V : Type} [LinearOrder K] [DecidableEq V] : Diff K V :=
  ⟨OrdMap.sortedDiff, OrdMap.mem_map_change_sortedDiff, OrdMap.map_change_sortedDiff_nodup⟩

end Containers
