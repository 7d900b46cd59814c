import Mathlib.Data.Finset.Card

/-! Sets of elements that meet every set of a list, as small as possible.

    Taking an element that is in the most sets is a good choice when any two elements of one set are
    dominated by a single one (`Merged`): the element taken then dominates all those it meets, so any
    other hitting set loses an element too when the sets it is in are left out. -/

namespace HittingSet

variable {α : Type} [DecidableEq α]

/-- The set meets every set of the list. -/
def Hits (T : Finset α) (sets : List (Finset α)) : Prop := ∀ s ∈ sets, ∃ t ∈ T, t ∈ s

/-- No hitting set is smaller. -/
def Minimum (T : Finset α) (sets : List (Finset α)) : Prop :=
  ∀ T' : Finset α, Hits T' sets → T.card ≤ T'.card

/-- `t` is in every set that `u` is in. -/
def Dominates (sets : List (Finset α)) (t u : α) : Prop := ∀ s ∈ sets, u ∈ s → t ∈ s

/-- Any two elements of one set are dominated by one element. -/
def Merged (sets : List (Finset α)) : Prop :=
  ∀ s ∈ sets, ∀ t ∈ s, ∀ u ∈ s, ∃ v, Dominates sets v t ∧ Dominates sets v u

/-- The sets the element is not in. -/
def without (t : α) (sets : List (Finset α)) : List (Finset α) := sets.filter (t ∉ ·)

/-- The number of sets the element is in. -/
def degree (sets : List (Finset α)) (t : α) : ℕ := sets.countP (t ∈ ·)

variable {sets : List (Finset α)} {t u : α} {s : Finset α}

theorem mem_without : s ∈ without t sets ↔ s ∈ sets ∧ t ∉ s := by
  simp [without]

theorem Merged.without (h : Merged sets) (t : α) : Merged (without t sets) := by
  intro s hs u hu v hv
  obtain ⟨w, hwu, hwv⟩ := h s (mem_without.mp hs).1 u hu v hv
  exact ⟨w, fun s hs => hwu s (mem_without.mp hs).1, fun s hs => hwv s (mem_without.mp hs).1⟩

theorem degree_pos (hs : s ∈ sets) (ht : t ∈ s) : 0 < degree sets t :=
  List.countP_pos_iff.mpr ⟨s, hs, by simpa using ht⟩

/-- Elements that are in as many sets as one they dominate are in the same sets. -/
theorem Dominates.symm_of_degree_le : ∀ {sets : List (Finset α)}, Dominates sets u t →
    degree sets u ≤ degree sets t → Dominates sets t u
  | [], _, _ => by
    intro s hs
    simp at hs
  | s :: sets, h, hle => by
    have htail : Dominates sets u t := (List.forall_mem_cons.mp h).2
    have hmono : degree sets t ≤ degree sets u :=
      List.countP_mono_left fun s' hs' ht => by simpa using htail s' hs' (by simpa using ht)
    have hhead := h s List.mem_cons_self
    simp only [degree, List.countP_cons, decide_eq_true_eq] at hle hmono
    intro s' hs' hu
    rcases List.mem_cons.mp hs' with rfl | hs'
    · by_contra ht
      rw [if_pos hu, if_neg ht] at hle
      omega
    · refine htail.symm_of_degree_le ?_ s' hs' hu
      simp only [degree]
      split at hle
      · split at hle
        · omega
        · omega
      · split at hle
        · next hs ht => exact absurd (hhead ht) hs
        · omega

variable (h : Merged sets) (hmax : ∀ v, degree sets v ≤ degree sets t)

include h hmax in
/-- An element that is in the most sets dominates those it shares a set with. -/
theorem Merged.dominates_of_max (hs : s ∈ sets) (ht : t ∈ s) (hu : u ∈ s) : Dominates sets t u := by
  obtain ⟨v, hvt, hvu⟩ := h s hs t ht u hu
  have htv := hvt.symm_of_degree_le (hmax v)
  intro s' hs' hu'
  exact htv s' hs' (hvu s' hs' hu')

include h hmax in
/-- Such an element can replace one of any hitting set. -/
theorem Hits.erase_of_max (ht : 0 < degree sets t) {T : Finset α} (hT : Hits T sets) :
    ∃ u ∈ T, Hits (T.erase u) (without t sets) := by
  obtain ⟨s, hs, hts⟩ := List.countP_pos_iff.mp ht
  obtain ⟨u, hu, hus⟩ := hT s hs
  have hdom := h.dominates_of_max hmax hs (by simpa using hts) hus
  refine ⟨u, hu, fun s' hs' => ?_⟩
  obtain ⟨hs', ht'⟩ := mem_without.mp hs'
  obtain ⟨v, hv, hvs⟩ := hT s' hs'
  refine ⟨v, Finset.mem_erase.mpr ⟨?_, hv⟩, hvs⟩
  rintro rfl
  exact ht' (hdom s' hs' hvs)

theorem Hits.insert {T : Finset α} (h : Hits T (without t sets)) : Hits (insert t T) sets := by
  intro s hs
  by_cases ht : t ∈ s
  · exact ⟨t, Finset.mem_insert_self t T, ht⟩
  · obtain ⟨u, hu, hus⟩ := h s (mem_without.mpr ⟨hs, ht⟩)
    exact ⟨u, Finset.mem_insert_of_mem hu, hus⟩

include h hmax in
/-- One step of the greedy choice keeps the least size. -/
theorem Minimum.insert (ht : 0 < degree sets t) {T : Finset α} (hT : Minimum T (without t sets)) :
    Minimum (insert t T) sets := by
  intro T' hT'
  obtain ⟨u, hu, hrest⟩ := hT'.erase_of_max h hmax ht
  calc (Insert.insert t T).card ≤ T.card + 1 := Finset.card_insert_le t T
    _ ≤ (T'.erase u).card + 1 := Nat.add_le_add_right (hT _ hrest) 1
    _ = T'.card := Finset.card_erase_add_one hu

end HittingSet
