import Osrd.Lib.Partial
import Mathlib.Data.List.Nodup
import Mathlib.Data.List.Induction

/-! Hash tables as batches use them: collected from a list of entries, visited in an order of their own, and
    filled with the indices of a batch, so that the entries with one key form one group whose work is done
    once (`groups`) and written at every index of the group (`fillAll`). -/

namespace HashTable

open List Partial Option

variable {K V A : Type}

/-! ### Collected tables -/

section Collect

variable [DecidableEq K]

/-- The table collected from the entries: a later entry replaces the ones before it. -/
def collect (entries : List (K × V)) (k : K) : Option V :=
  entries.foldl (fun found e => if e.1 = k then some e.2 else found) none

theorem collect_concat (entries : List (K × V)) (e : K × V) (k : K) :
    collect (entries ++ [e]) k = if e.1 = k then some e.2 else collect entries k := by
  rw [collect, foldl_append]
  rfl

/-- Keys with other names, and other values. -/
theorem collect_map {L W : Type} [DecidableEq L] {f : K → L} (hf : Function.Injective f) (g : V → W)
    (entries : List (K × V)) (k : K) :
    collect (entries.map fun e => (f e.1, g e.2)) (f k) = (collect entries k).map g := by
  induction entries using reverseRecOn with
  | nil => rfl
  | append_singleton entries e ih =>
    simp only [map_append, map_cons, map_nil, collect_concat, ih, hf.eq_iff]
    split
    · rfl
    · rfl

theorem collect_rename {L : Type} [DecidableEq L] {f : K → L} (hf : Function.Injective f)
    (entries : List (K × V)) (k : K) :
    collect (entries.map fun e => (f e.1, e.2)) (f k) = collect entries k := by
  have h := collect_map hf (fun v : V => v) entries k
  rwa [Option.map_id'] at h

end Collect

/-- The order in which a table gives its entries. -/
structure Visit (α : Type) where
  order : List α → List α
  perm : ∀ entries, (order entries).Perm entries

namespace Visit

variable {α : Type}

def inOrder : Visit α := ⟨id, fun _ => .refl _⟩

theorem mem_order (visit : Visit α) {entries : List α} {a : α} :
    a ∈ visit.order entries ↔ a ∈ entries := (visit.perm entries).mem_iff

end Visit

/-! ### Groups -/

/-- The key of a group, what its first member brought, and the indices of its members. -/
structure Bucket (K V : Type) where
  key : K
  first : V
  indexes : List ℕ

/-- The entry of the key, made with `v` if there is none, gets the index. -/
def push [DecidableEq K] (k : K) (v : V) (i : ℕ) : List (Bucket K V) → List (Bucket K V)
  | [] => [⟨k, v, [i]⟩]
  | g :: gs =>
      if g.key = k then { g with indexes := g.indexes ++ [i] } :: gs else g :: push k v i gs

/-- The members from index `i` on join the groups; a member with no key joins none. -/
def groupFrom [DecidableEq K] : (i : ℕ) → List (Option (K × V)) → List (Bucket K V) → List (Bucket K V)
  | _, [], gs => gs
  | i, none :: members, gs => groupFrom (i + 1) members gs
  | i, some (k, v) :: members, gs => groupFrom (i + 1) members (push k v i gs)

def groups [DecidableEq K] (members : List (Option (K × V))) : List (Bucket K V) := groupFrom 0 members []

variable {i : ℕ}

theorem getElem?_concat_eq_some {l : List A} {a b : A} :
    (l ++ [a])[i]? = some b ↔ l[i]? = some b ∨ (i = l.length ∧ a = b) := by
  rw [getElem?_append]
  split
  · next h => simp [Nat.ne_of_lt h]
  · next h =>
    have hle : l.length ≤ i := Nat.le_of_not_lt h
    have hzero : i - l.length = 0 ↔ i = l.length := by omega
    simp [List.getElem?_eq_none hle, getElem?_singleton, hzero]

theorem mem_of_replaced {before after : List A} {a c : A} (b : A) (h : c ∈ before ++ a :: after) :
    c ∈ before ++ b :: after ∨ c = a := by
  rcases mem_append.mp h with h | h
  · exact .inl (mem_append_left _ h)
  · rcases mem_cons.mp h with rfl | h
    · exact .inr rfl
    · exact .inl (mem_append_right _ (mem_cons_of_mem _ h))

/-- What a push can do: the group of the key grows, or is made. -/
theorem push_cases [DecidableEq K] (k : K) (v : V) (i : ℕ) : ∀ gs : List (Bucket K V),
    (∃ before g after, gs = before ++ g :: after ∧ g.key = k ∧
      push k v i gs = before ++ { g with indexes := g.indexes ++ [i] } :: after) ∨
    ((∀ g ∈ gs, g.key ≠ k) ∧ push k v i gs = gs ++ [⟨k, v, [i]⟩])
  | [] => .inr ⟨by simp, rfl⟩
  | g :: gs => by
    rw [push]
    by_cases hk : g.key = k
    · rw [if_pos hk]
      exact .inl ⟨[], g, gs, rfl, hk, rfl⟩
    · rw [if_neg hk]
      rcases push_cases k v i gs with ⟨before, g', after, rfl, hg', hpush⟩ | ⟨hne, hpush⟩
      · exact .inl ⟨g :: before, g', after, rfl, hg', by rw [hpush]; rfl⟩
      · refine .inr ⟨?_, by rw [hpush]; rfl⟩
        intro h hh
        rcases mem_cons.mp hh with rfl | hh
        · exact hk
        · exact hne h hh

/-- One group for each key of the members. -/
structure Grouped (members : List (Option (K × V))) (gs : List (Bucket K V)) : Prop where
  sound : ∀ g ∈ gs, ∀ i ∈ g.indexes, ∃ v, members[i]? = some (some (g.key, v))
  complete : ∀ i k v, members[i]? = some (some (k, v)) → ∃ g ∈ gs, g.key = k ∧ i ∈ g.indexes
  first : ∀ g ∈ gs, ∃ i, g.indexes.head? = some i ∧ members[i]? = some (some (g.key, g.first))
  keys : (gs.map Bucket.key).Nodup

variable {g : Bucket K V}

namespace Grouped

variable {members : List (Option (K × V))} {gs : List (Bucket K V)}

theorem nil : Grouped ([] : List (Option (K × V))) [] where
  sound := by simp
  complete := by simp
  first := by simp
  keys := nodup_nil

theorem eq_of_key (h : Grouped members gs) {g g' : Bucket K V} (hg : g ∈ gs) (hg' : g' ∈ gs)
    (hk : g.key = g'.key) : g = g' := inj_on_of_nodup_map h.keys hg hg' hk

/-- An index is in one group only. -/
theorem eq_of_mem (h : Grouped members gs) {g g' : Bucket K V} (hg : g ∈ gs) (hg' : g' ∈ gs)
    (hi : i ∈ g.indexes) (hi' : i ∈ g'.indexes) : g = g' := by
  obtain ⟨v, hv⟩ := h.sound g hg i hi
  obtain ⟨v', hv'⟩ := h.sound g' hg' i hi'
  have hkv : (g.key, v) = (g'.key, v') := by simpa using hv.symm.trans hv'
  exact h.eq_of_key hg hg' (Prod.ext_iff.mp hkv).1

theorem concat_none (h : Grouped members gs) : Grouped (members ++ [none]) gs where
  sound g hg i hi := by
    obtain ⟨v, hv⟩ := h.sound g hg i hi
    exact ⟨v, getElem?_concat_eq_some.mpr (.inl hv)⟩
  complete i k v hi := by
    rcases getElem?_concat_eq_some.mp hi with hold | ⟨-, hnew⟩
    · exact h.complete i k v hold
    · cases hnew
  first g hg := by
    obtain ⟨i, hi, hv⟩ := h.first g hg
    exact ⟨i, hi, getElem?_concat_eq_some.mpr (.inl hv)⟩
  keys := h.keys

/-- The key has a group: it grows. -/
theorem grow {before after : List (Bucket K V)} (v : V)
    (h : Grouped members (before ++ g :: after)) : Grouped (members ++ [some (g.key, v)])
      (before ++ { g with indexes := g.indexes ++ [members.length] } :: after) where
  sound g' hg' i hi := by
    rcases mem_of_replaced g hg' with hold | rfl
    · obtain ⟨w, hw⟩ := h.sound g' hold i hi
      exact ⟨w, getElem?_concat_eq_some.mpr (.inl hw)⟩
    · rcases mem_append.mp hi with hold | hnew
      · obtain ⟨w, hw⟩ := h.sound g (by simp) i hold
        exact ⟨w, getElem?_concat_eq_some.mpr (.inl hw)⟩
      · exact ⟨v, getElem?_concat_eq_some.mpr (.inr ⟨mem_singleton.mp hnew, rfl⟩)⟩
  complete i k w hi := by
    rcases getElem?_concat_eq_some.mp hi with hold | ⟨hlast, hnew⟩
    · obtain ⟨g', hg', hk, hmem⟩ := h.complete i k w hold
      rcases mem_of_replaced { g with indexes := g.indexes ++ [members.length] } hg' with hg' | rfl
      · exact ⟨g', hg', hk, hmem⟩
      · exact ⟨_, mem_append_right _ mem_cons_self, hk, mem_append_left _ hmem⟩
    · cases hnew
      exact ⟨_, mem_append_right _ mem_cons_self, rfl, by simp [hlast]⟩
  first g' hg' := by
    rcases mem_of_replaced g hg' with hold | rfl
    · obtain ⟨i, hi, hv⟩ := h.first g' hold
      exact ⟨i, hi, getElem?_concat_eq_some.mpr (.inl hv)⟩
    · obtain ⟨i, hi, hv⟩ := h.first g (by simp)
      exact ⟨i, by simp [hi], getElem?_concat_eq_some.mpr (.inl hv)⟩
  keys := by simpa using h.keys

/-- The key has no group yet. -/
theorem make (k : K) (v : V) (hk : ∀ g ∈ gs, g.key ≠ k) (h : Grouped members gs) :
    Grouped (members ++ [some (k, v)]) (gs ++ [⟨k, v, [members.length]⟩]) where
  sound g hg i hi := by
    rcases mem_append.mp hg with hg | hg
    · obtain ⟨w, hw⟩ := h.sound g hg i hi
      exact ⟨w, getElem?_concat_eq_some.mpr (.inl hw)⟩
    · cases mem_singleton.mp hg
      exact ⟨v, getElem?_concat_eq_some.mpr (.inr ⟨mem_singleton.mp hi, rfl⟩)⟩
  complete i k' w hi := by
    rcases getElem?_concat_eq_some.mp hi with hold | ⟨hlast, hnew⟩
    · obtain ⟨g, hg, hkey, hmem⟩ := h.complete i k' w hold
      exact ⟨g, mem_append_left _ hg, hkey, hmem⟩
    · cases hnew
      exact ⟨_, mem_append_right _ (mem_singleton_self _), rfl, by simp [hlast]⟩
  first g hg := by
    rcases mem_append.mp hg with hg | hg
    · obtain ⟨i, hi, hv⟩ := h.first g hg
      exact ⟨i, hi, getElem?_concat_eq_some.mpr (.inl hv)⟩
    · cases mem_singleton.mp hg
      exact ⟨members.length, rfl, getElem?_concat_eq_some.mpr (.inr ⟨rfl, rfl⟩)⟩
  keys := by
    rw [map_append, nodup_append]
    refine ⟨h.keys, by simp, ?_⟩
    intro key hkey key' hkey'
    obtain ⟨g, hg, rfl⟩ := mem_map.mp hkey
    rw [map_singleton, mem_singleton] at hkey'
    exact hkey' ▸ hk g hg

theorem push [DecidableEq K] (k : K) (v : V) (h : Grouped members gs) :
    Grouped (members ++ [some (k, v)]) (push k v members.length gs) := by
  rcases push_cases k v members.length gs with ⟨before, g, after, rfl, rfl, hpush⟩ | ⟨hk, hpush⟩
  · rw [hpush]
    exact h.grow v
  · rw [hpush]
    exact h.make k v hk

theorem groupFrom [DecidableEq K] : ∀ {rest members : List (Option (K × V))} {gs : List (Bucket K V)},
    Grouped members gs → Grouped (members ++ rest) (groupFrom members.length rest gs)
  | [], members, gs, h => by simpa [HashTable.groupFrom] using h
  | none :: rest, members, gs, h => by
    have hrest : Grouped (members ++ [none] ++ rest) _ := h.concat_none.groupFrom
    simpa [HashTable.groupFrom] using hrest
  | some (k, v) :: rest, members, gs, h => by
    have hrest : Grouped (members ++ [some (k, v)] ++ rest) _ := (h.push k v).groupFrom
    simpa [HashTable.groupFrom] using hrest

end Grouped

theorem groups_grouped [DecidableEq K] (members : List (Option (K × V))) :
    Grouped members (groups members) :=
  Grouped.nil.groupFrom

/-! ### Writing the results of the groups -/

/-- The value, written at the indices. -/
def fill (results : List A) (indexes : List ℕ) (a : A) : List A :=
  indexes.foldl (fun results i => results.set i a) results

def fillAll (results : List A) (writes : List (List ℕ × A)) : List A :=
  writes.foldl (fun results w => fill results w.1 w.2) results

theorem length_fill (a : A) : ∀ (indexes : List ℕ) (results : List A),
    (fill results indexes a).length = results.length
  | [], _ => rfl
  | i :: indexes, results => by
    rw [fill, foldl_cons, ← fill, length_fill a indexes, length_set]

theorem length_fillAll : ∀ (writes : List (List ℕ × A)) (results : List A),
    (fillAll results writes).length = results.length
  | [], _ => rfl
  | w :: writes, results => by
    rw [fillAll, foldl_cons, ← fillAll, length_fillAll writes, length_fill]

theorem getElem?_fill_of_notMem (a : A) : ∀ {indexes : List ℕ} {results : List A},
    i ∉ indexes → (fill results indexes a)[i]? = results[i]?
  | [], _, _ => rfl
  | j :: indexes, results, h => by
    rw [mem_cons, not_or] at h
    rw [fill, foldl_cons, ← fill, getElem?_fill_of_notMem a h.2, getElem?_set_ne (Ne.symm h.1)]

theorem getElem?_fill_of_mem (a : A) : ∀ {indexes : List ℕ} {results : List A},
    i ∈ indexes → i < results.length → (fill results indexes a)[i]? = some a
  | j :: indexes, results, h, hi => by
    rw [fill, foldl_cons, ← fill]
    by_cases hmem : i ∈ indexes
    · exact getElem?_fill_of_mem a hmem (by rwa [length_set])
    · rcases mem_cons.mp h with rfl | h
      · rw [getElem?_fill_of_notMem a hmem, getElem?_set_self hi]
      · exact absurd h hmem

theorem getElem?_fillAll_of_notMem : ∀ {writes : List (List ℕ × A)} {results : List A},
    (∀ w ∈ writes, i ∉ w.1) → (fillAll results writes)[i]? = results[i]?
  | [], _, _ => rfl
  | w :: writes, results, h => by
    rw [forall_mem_cons] at h
    rw [fillAll, foldl_cons, ← fillAll, getElem?_fillAll_of_notMem h.2, getElem?_fill_of_notMem _ h.1]

/-- All the writes at an index write one value there. -/
theorem getElem?_fillAll {a : A} : ∀ {writes : List (List ℕ × A)} {results : List A},
    i < results.length → (∃ w ∈ writes, i ∈ w.1) → (∀ w ∈ writes, i ∈ w.1 → w.2 = a) →
    (fillAll results writes)[i]? = some a
  | [], _, _, hex, _ => by simp at hex
  | w :: writes, results, hi, hex, hall => by
    rw [forall_mem_cons] at hall
    rw [fillAll, foldl_cons, ← fillAll]
    by_cases hlater : ∃ w ∈ writes, i ∈ w.1
    · exact getElem?_fillAll (by rwa [length_fill]) hlater hall.2
    · have hw : i ∈ w.1 := by
        obtain ⟨w', hw', hi'⟩ := hex
        rcases mem_cons.mp hw' with rfl | hw'
        · exact hi'
        · exact absurd ⟨w', hw', hi'⟩ hlater
      push Not at hlater
      rw [getElem?_fillAll_of_notMem hlater, getElem?_fill_of_mem _ hw hi, hall.1 hw]

/-! ### Work done once for a group -/

/-- The work of a group, for all its members. -/
def groupWork (work : V → Option A) (g : Bucket K V) : Option (List ℕ × A) := do
  let a ← work g.first
  return (g.indexes, a)

theorem groupWork_eq_some {work : V → Option A} {w : List ℕ × A} :
    groupWork work g = some w ↔ w.1 = g.indexes ∧ work g.first = some w.2 := by
  cases h : work g.first with
  | none => simp [groupWork, h]
  | some a =>
    simp only [groupWork, h, bind_eq_bind, bind_some, pure, some.injEq, Prod.ext_iff]
    exact ⟨fun hw => ⟨hw.1.symm, hw.2⟩, fun hw => ⟨hw.1.symm, hw.2⟩⟩

section Work

variable [DecidableEq K] {work : V → Option A} {members : List (K × V)}

/-- Members with one key have the same work to do. -/
def SameWork (work : V → Option A) (members : List (K × V)) : Prop :=
  ∀ m ∈ members, ∀ m' ∈ members, m.1 = m'.1 → work m.2 = work m'.2

/-- The member at an index of a group has the work of the group's first member. -/
theorem SameWork.work_eq (h : SameWork work members)
    (hg : g ∈ groups (members.map some)) (hi : i ∈ g.indexes) :
    ∃ m, members[i]? = some m ∧ work m.2 = work g.first := by
  have hgrouped := groups_grouped (members.map some)
  obtain ⟨v, hv⟩ := hgrouped.sound g hg i hi
  obtain ⟨j, -, hj⟩ := hgrouped.first g hg
  rw [getElem?_map, map_eq_some_iff] at hv hj
  obtain ⟨m, hm, hmv⟩ := hv
  obtain ⟨m', hm', hmv'⟩ := hj
  cases hmv
  cases hmv'
  exact ⟨_, hm, h _ (mem_of_getElem? hm) _ (mem_of_getElem? hm') rfl⟩

theorem SameWork.exists_group (h : SameWork work members) {m : K × V} (hm : members[i]? = some m) :
    ∃ g ∈ groups (members.map some), i ∈ g.indexes ∧ work m.2 = work g.first := by
  have hmember : (members.map some)[i]? = some (some m) := by rw [getElem?_map, hm]; rfl
  obtain ⟨g, hg, -, hi⟩ := (groups_grouped (members.map some)).complete i m.1 m.2 hmember
  obtain ⟨m', hm', hwork⟩ := h.work_eq hg hi
  rw [hm] at hm'
  cases hm'
  exact ⟨g, hg, hi, hwork⟩

/-- Each group has a result when each member has one, as the first member of each group has. -/
theorem SameWork.exists_writes (h : SameWork work members) (visit : Visit (Bucket K V))
    {results : List A} (hresults : (members.mapM fun m => work m.2) = some results) :
    ∃ writes, (visit.order (groups (members.map some))).mapM (groupWork work) = some writes := by
  apply mapM_exists
  intro g hg
  rw [visit.mem_order] at hg
  obtain ⟨j, hj, -⟩ := (groups_grouped (members.map some)).first g hg
  obtain ⟨m, hm, hwork⟩ := h.work_eq hg (mem_of_head? hj)
  obtain ⟨b, hb⟩ := exists_of_mapM hresults (mem_of_getElem? hm)
  exact ⟨(g.indexes, b), groupWork_eq_some.mpr ⟨rfl, hwork ▸ hb⟩⟩

variable (h : SameWork work members) {visit : Visit (Bucket K V)} {writes : List (List ℕ × A)}
  (hwrites : (visit.order (groups (members.map some))).mapM (groupWork work) = some writes)

include h hwrites in
theorem SameWork.exists_results : ∃ results, (members.mapM fun m => work m.2) = some results := by
  apply mapM_exists
  intro m hm
  obtain ⟨i, hi⟩ := mem_iff_getElem?.mp hm
  obtain ⟨g, hg, -, hwork⟩ := h.exists_group hi
  obtain ⟨w, hw⟩ := exists_of_mapM hwrites (visit.mem_order.mpr hg)
  exact ⟨w.2, hwork.trans (groupWork_eq_some.mp hw).2⟩

include h hwrites in
/-- What is written at the index of a member is the result of its own work. -/
theorem SameWork.fillAll_at
    {m : K × V} (hm : members[i]? = some m) {results : List A} (hi : i < results.length) :
    (fillAll results writes)[i]? = work m.2 := by
  obtain ⟨g, hg, hig, hwork⟩ := h.exists_group hm
  obtain ⟨w, hw⟩ := exists_of_mapM hwrites (visit.mem_order.mpr hg)
  obtain ⟨hindexes, hvalue⟩ := groupWork_eq_some.mp hw
  rw [hwork, hvalue]
  apply getElem?_fillAll hi
  · exact ⟨w, (mem_mapM_iff hwrites).mpr ⟨g, visit.mem_order.mpr hg, hw⟩, hindexes ▸ hig⟩
  · intro w' hw' hi'
    obtain ⟨g', hg', hgw'⟩ := (mem_mapM_iff hwrites).mp hw'
    obtain ⟨hindexes', hvalue'⟩ := groupWork_eq_some.mp hgw'
    cases (groups_grouped (members.map some)).eq_of_mem (visit.mem_order.mp hg') hg
      (hindexes' ▸ hi') hig
    rw [hvalue] at hvalue'
    exact (some.inj hvalue').symm

/-- The work of the groups is the work of each member. -/
theorem SameWork.fillAll_eq (h : SameWork work members) (visit : Visit (Bucket K V)) (a : A) :
    ((visit.order (groups (members.map some))).mapM (groupWork work)).map
        (fillAll (replicate members.length a)) = members.mapM fun m => work m.2 := by
  cases hwrites : (visit.order (groups (members.map some))).mapM (groupWork work) with
  | none =>
    cases hresults : members.mapM fun m => work m.2 with
    | none => rfl
    | some results =>
      obtain ⟨writes, hwrites'⟩ := h.exists_writes visit hresults
      rw [hwrites] at hwrites'
      cases hwrites'
  | some writes =>
    obtain ⟨results, hresults⟩ := h.exists_results hwrites
    rw [hresults, map_some, some.injEq]
    apply ext_getElem?
    intro i
    rw [getElem?_of_mapM hresults]
    cases hm : members[i]? with
    | some m =>
      refine h.fillAll_at hwrites hm ?_
      rw [length_replicate]
      exact (List.getElem?_eq_some_iff.mp hm).1
    | none =>
      apply List.getElem?_eq_none
      rw [length_fillAll, length_replicate]
      exact getElem?_eq_none_iff.mp hm

end Work

end HashTable
