import Mathlib.Data.Finmap
import Mathlib.Data.Finset.Max
import Mathlib.Data.Prod.Lex

/-! Two containers with handles, of which only what their interfaces promise is known: an arena gives out
    any handles, none of them twice, and a priority queue answers any of its entries with the least
    priority. -/

namespace Containers

open Finset Function

/-! ### Arenas -/

/-- The handles of an arena in the order in which they are given out: whatever they are, none is given out
    twice. -/
abbrev Handles := ℕ ↪ ℕ

/-- Values by handle; no handle that is still to be given out is in use. -/
structure Arena (α : Type) where
  handles : Handles
  inserted : ℕ
  get : ℕ → Option α
  fresh : ∀ n, inserted ≤ n → get (handles n) = none

namespace Arena

variable {α : Type}

def empty (handles : Handles) : Arena α := ⟨handles, 0, fun _ => none, fun _ _ => rfl⟩

/-- The handle that is given out next. -/
def next (a : Arena α) : ℕ := a.handles a.inserted

/-- Stores a value under a new handle. -/
def insert (a : Arena α) (x : α) : Arena α where
  handles := a.handles
  inserted := a.inserted + 1
  get := update a.get a.next (some x)
  fresh := fun n hn => by
    have hne : a.handles n ≠ a.next := a.handles.injective.ne (by omega)
    rw [update_of_ne hne]
    exact a.fresh n (by omega)

/-- Overwrites or removes the value of a handle in use. -/
def set (a : Arena α) (i : ℕ) (x : Option α) : Arena α where
  handles := a.handles
  inserted := a.inserted
  get := if (a.get i).isSome then update a.get i x else a.get
  fresh := fun n hn => by
    split
    · next hi =>
      rw [update_of_ne]
      · exact a.fresh n hn
      · rintro rfl
        rw [a.fresh n hn] at hi
        cases hi
    · exact a.fresh n hn

theorem get_set {a : Arena α} {i : ℕ} {x : Option α} (hi : (a.get i).isSome) :
    (a.set i x).get = update a.get i x :=
  if_pos hi

theorem next_unused (a : Arena α) : a.get a.next = none := a.fresh _ le_rfl

end Arena

/-! ### Priority queues -/

/-- The priorities by handle. -/
abbrev PriorityQueue (ι τ : Type) := Finmap fun _ : ι => τ

namespace PriorityQueue

variable {ι τ : Type} [DecidableEq ι] {q q' : PriorityQueue ι τ} {i j : ι} {t u : τ}

theorem lookup_insert_eq_some :
    (q.insert i t).lookup j = some u ↔ (j = i ∧ u = t) ∨ (j ≠ i ∧ q.lookup j = some u) := by
  rcases eq_or_ne j i with rfl | hne
  · simp [eq_comm]
  · simp [hne, Finmap.lookup_insert_of_ne]

theorem lookup_erase_eq_some : (q.erase i).lookup j = some u ↔ j ≠ i ∧ q.lookup j = some u := by
  rcases eq_or_ne j i with rfl | hne
  · simp
  · simp [hne, Finmap.lookup_erase_ne]

/-- How many handles have a priority with the property `p`. -/
def count (q : PriorityQueue ι τ) (p : τ → Bool) : ℕ := (q.keys.filter fun i => (q.lookup i).any p).card

theorem mem_count {p : τ → Bool} :
    i ∈ q.keys.filter (fun i => (q.lookup i).any p) ↔ ∃ t, q.lookup i = some t ∧ p t := by
  rw [mem_filter, Finmap.mem_keys, Option.any_eq_true]
  refine and_iff_right_of_imp ?_
  rintro ⟨t, ht, -⟩
  exact Finmap.mem_of_lookup_eq_some ht

/-- A priority with the property is gone, and no other one has come. -/
theorem count_lt_count {p : τ → Bool} (hi : q.lookup i = some t) (ht : p t)
    (hgone : ∀ u, q'.lookup i = some u → ¬ p u)
    (hkept : ∀ j u, q'.lookup j = some u → p u → q.lookup j = some u) : q'.count p < q.count p := by
  refine card_lt_card ((ssubset_iff_of_subset fun j hj => ?_).mpr ⟨i, ?_, ?_⟩)
  · obtain ⟨u, hu, hp⟩ := mem_count.mp hj
    exact mem_count.mpr ⟨u, hkept j u hu hp, hp⟩
  · exact mem_count.mpr ⟨t, hi, ht⟩
  · intro hi'
    obtain ⟨u, hu, hp⟩ := mem_count.mp hi'
    exact hgone u hu hp

end PriorityQueue

/-- A choice of an entry with the least priority, whichever it is among equal ones. -/
structure Peek (ι τ : Type) [DecidableEq ι] [LE τ] where
  peek : PriorityQueue ι τ → Option (ι × τ)
  none_iff : ∀ q, peek q = none ↔ q = ∅
  mem : ∀ {q e}, peek q = some e → q.lookup e.1 = some e.2
  least : ∀ {q e}, peek q = some e → ∀ i t, q.lookup i = some t → e.2 ≤ t

section First

variable {ι τ : Type} [LinearOrder ι] [LinearOrder τ]

/-- The entries in the order of their priorities, then of their handles. -/
def byPriority (q : PriorityQueue ι τ) : Finset (τ ×ₗ ι) :=
  (q.entries.map fun e => toLex (e.2, e.1)).toFinset

theorem mem_byPriority {q : PriorityQueue ι τ} {i : ι} {t : τ} :
    toLex (t, i) ∈ byPriority q ↔ q.lookup i = some t := by
  rw [byPriority, Multiset.mem_toFinset, Multiset.mem_map, ← Option.mem_def, Finmap.mem_lookup_iff]
  constructor
  · rintro ⟨⟨i', t'⟩, he, heq⟩
    cases heq
    exact he
  · exact fun he => ⟨⟨i, t⟩, he, rfl⟩

/-- The least handle among those with the least priority. -/
def Peek.first (ι τ : Type) [LinearOrder ι] [LinearOrder τ] : Peek ι τ where
  peek := fun q => Option.map (fun e => ((ofLex e).2, (ofLex e).1)) (byPriority q).min
  none_iff := fun q => by
    refine Option.map_eq_none_iff.trans ((min_eq_top (s := byPriority q)).trans
      ⟨fun h => Finmap.ext_lookup fun i => ?_, ?_⟩)
    · rw [Finmap.lookup_empty, Option.eq_none_iff_forall_ne_some]
      exact fun t ht => notMem_empty _ (h ▸ mem_byPriority.mpr ht)
    · rintro rfl
      rfl
  mem := fun h => by
    obtain ⟨e, he, rfl⟩ := Option.map_eq_some_iff.mp h
    exact mem_byPriority.mp (mem_of_min he)
  least := fun h i t ht => by
    obtain ⟨e, he, rfl⟩ := Option.map_eq_some_iff.mp h
    exact Prod.Lex.monotone_fst e _ (min_le_of_eq (mem_byPriority.mpr ht) he)

end First

end Containers
