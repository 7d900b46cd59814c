import Mathlib.Data.List.Basic
import Mathlib.Data.List.Induction

/-! Hash tables of lists: each value joins the list of its key, which is made for the first one. Two keys
    are the same when their canonical forms are; the table keeps the first of them.

    The list of a key has the values with that key, in order, and no two lists have the same key. -/

namespace ListsByKey

open List

variable {K V L : Type} [DecidableEq L]

/-- The list of the key, made if there is none, gets the value. -/
def addTo (canon : K → L) (k : K) (v : V) : List (K × List V) → List (K × List V)
  | [] => [(k, [v])]
  | e :: table =>
      if canon e.1 = canon k then (e.1, e.2 ++ [v]) :: table else e :: addTo canon k v table

def collect (canon : K → L) (entries : List (K × V)) : List (K × List V) :=
  entries.foldl (fun table e => addTo canon e.1 e.2 table) []

variable {canon : K → L}

/-- What joining does: the list of the key grows, or is made. -/
theorem addTo_cases (canon : K → L) (k : K) (v : V) : ∀ table : List (K × List V),
    (∃ before e after, table = before ++ e :: after ∧ canon e.1 = canon k ∧
      addTo canon k v table = before ++ (e.1, e.2 ++ [v]) :: after) ∨
    ((∀ e ∈ table, canon e.1 ≠ canon k) ∧ addTo canon k v table = table ++ [(k, [v])])
  | [] => .inr ⟨by simp, rfl⟩
  | e :: table => by
    rw [addTo]
    by_cases hk : canon e.1 = canon k
    · rw [if_pos hk]
      exact .inl ⟨[], e, table, rfl, hk, rfl⟩
    · rw [if_neg hk]
      rcases addTo_cases canon k v table with ⟨before, e', after, rfl, he', hadd⟩ | ⟨hne, hadd⟩
      · exact .inl ⟨e :: before, e', after, rfl, he', by rw [hadd]; rfl⟩
      · exact .inr ⟨forall_mem_cons.mpr ⟨hk, hne⟩, by rw [hadd]; rfl⟩

/-- The values with the key, in order. -/
def valuesOf (canon : K → L) (entries : List (K × V)) (k : K) : List V :=
  (entries.filter fun e => canon e.1 = canon k).map (·.2)

variable {entries : List (K × V)}

theorem valuesOf_concat_same {e : K × V} {k : K} (h : canon e.1 = canon k) :
    valuesOf canon (entries ++ [e]) k = valuesOf canon entries k ++ [e.2] := by
  simp [valuesOf, h]

theorem valuesOf_concat_other {e : K × V} {k : K} (h : canon e.1 ≠ canon k) :
    valuesOf canon (entries ++ [e]) k = valuesOf canon entries k := by
  simp [valuesOf, h]

/-- One list for each key of the entries. -/
structure Collected (canon : K → L) (entries : List (K × V)) (table : List (K × List V)) : Prop where
  values : ∀ e ∈ table, e.2 = valuesOf canon entries e.1 ∧ e.2 ≠ []
  complete : ∀ e ∈ entries, ∃ e' ∈ table, canon e'.1 = canon e.1
  keys : table.Pairwise fun e e' => canon e.1 ≠ canon e'.1

theorem Collected.add {table : List (K × List V)} (h : Collected canon entries table) (e : K × V) :
    Collected canon (entries ++ [e]) (addTo canon e.1 e.2 table) := by
  rcases addTo_cases canon e.1 e.2 table with ⟨before, e₀, after, rfl, hkey, hadd⟩ | ⟨hne, hadd⟩
  · -- the list of the key grows, and the others keep their values
    obtain ⟨hbefore, hafter, hcross⟩ := pairwise_append.mp h.keys
    obtain ⟨hfirst, hafter⟩ := pairwise_cons.mp hafter
    rw [hadd]
    constructor
    · intro e' he'
      rcases mem_append.mp he' with he' | he'
      · have hother := hcross e' he' e₀ mem_cons_self
        rw [valuesOf_concat_other (fun heq => hother (heq.symm.trans hkey.symm))]
        exact h.values e' (mem_append_left _ he')
      rcases mem_cons.mp he' with rfl | he'
      · obtain ⟨hvalues, -⟩ := h.values e₀ (by simp)
        exact ⟨by rw [valuesOf_concat_same hkey.symm, hvalues], by simp⟩
      · have hother := hfirst e' he'
        rw [valuesOf_concat_other (fun heq => hother (hkey.trans heq))]
        exact h.values e' (by simp [he'])
    · intro e' he'
      rcases mem_append.mp he' with he' | he'
      · obtain ⟨e₁, he₁, hsame⟩ := h.complete e' he'
        rcases mem_append.mp he₁ with he₁ | he₁
        · exact ⟨e₁, by simp [he₁], hsame⟩
        rcases mem_cons.mp he₁ with rfl | he₁
        · exact ⟨_, mem_append_right _ mem_cons_self, hsame⟩
        · exact ⟨e₁, by simp [he₁], hsame⟩
      · rw [mem_singleton.mp he']
        exact ⟨_, mem_append_right _ mem_cons_self, hkey⟩
    · refine pairwise_append.mpr ⟨hbefore, pairwise_cons.mpr ⟨hfirst, hafter⟩, ?_⟩
      intro e₁ he₁ e₂ he₂
      rcases mem_cons.mp he₂ with rfl | he₂
      · exact hcross e₁ he₁ e₀ mem_cons_self
      · exact hcross e₁ he₁ e₂ (mem_cons_of_mem _ he₂)
  · rw [hadd]
    constructor
    · intro e' he'
      rcases mem_append.mp he' with he' | he'
      · rw [valuesOf_concat_other fun heq => hne e' he' heq.symm]
        exact h.values e' he'
      · rw [mem_singleton.mp he', valuesOf_concat_same rfl]
        refine ⟨?_, by simp⟩
        -- no entry had the key before
        have hnone : valuesOf canon entries e.1 = [] := by
          rw [valuesOf, map_eq_nil_iff, filter_eq_nil_iff]
          intro e' he'
          obtain ⟨e₁, he₁, hsame⟩ := h.complete e' he'
          simpa [← hsame] using hne e₁ he₁
        rw [hnone, nil_append]
    · intro e' he'
      rcases mem_append.mp he' with he' | he'
      · obtain ⟨e₁, he₁, hsame⟩ := h.complete e' he'
        exact ⟨e₁, mem_append_left _ he₁, hsame⟩
      · rw [mem_singleton.mp he']
        exact ⟨_, mem_append_right _ (mem_singleton_self _), rfl⟩
    · refine pairwise_append.mpr ⟨h.keys, pairwise_singleton _ _, fun e₁ he₁ e₂ he₂ => ?_⟩
      rw [mem_singleton.mp he₂]
      exact hne e₁ he₁

theorem collected_collect (canon : K → L) (entries : List (K × V)) :
    Collected canon entries (collect canon entries) := by
  induction entries using reverseRecOn with
  | nil => exact ⟨by simp [collect], by simp, .nil⟩
  | append_singleton entries e ih =>
    rw [collect, foldl_append]
    exact ih.add e

/-- The order of the lists does not matter. -/
theorem Collected.perm {table table' : List (K × List V)} (h : Collected canon entries table)
    (hperm : table'.Perm table) : Collected canon entries table' where
  values e he := h.values e (hperm.mem_iff.mp he)
  complete e he := by
    obtain ⟨e', he', hsame⟩ := h.complete e he
    exact ⟨e', hperm.mem_iff.mpr he', hsame⟩
  keys := h.keys.perm hperm.symm fun hne => hne.symm

/-- What the only element with a key gives is all that a search for the key finds. -/
theorem filter_flatMap_of_key {A W : Type} {key : A → L} {as : List A}
    (hkeys : as.Pairwise fun a b => key a ≠ key b) {f : A → List W} {p : W → Bool} {k : L}
    (hf : ∀ a ∈ as, ∀ w ∈ f a, p w = decide (key a = k)) {a : A} (ha : a ∈ as) (hk : key a = k) :
    (as.flatMap f).filter p = f a := by
  obtain ⟨before, after, rfl⟩ := append_of_mem ha
  obtain ⟨-, hafter, hcross⟩ := pairwise_append.mp hkeys
  obtain ⟨hfirst, -⟩ := pairwise_cons.mp hafter
  have hnone : ∀ bs : List A, (∀ b ∈ bs, b ∈ before ++ a :: after ∧ key b ≠ k) →
      (bs.flatMap f).filter p = [] := by
    intro bs hbs
    rw [filter_eq_nil_iff]
    intro w hw
    obtain ⟨b, hb, hw⟩ := mem_flatMap.mp hw
    rw [hf b (hbs b hb).1 w hw]
    simpa using (hbs b hb).2
  have hself : (f a).filter p = f a := by
    rw [filter_eq_self]
    intro w hw
    rw [hf a ha w hw]
    exact decide_eq_true hk
  rw [flatMap_append, flatMap_cons, filter_append, filter_append, hself,
    hnone before, hnone after, nil_append, append_nil]
  · exact fun b hb => ⟨by simp [hb], fun hk' => hfirst b hb (hk.trans hk'.symm)⟩
  · exact fun b hb => ⟨by simp [hb], fun hk' => hcross b hb a mem_cons_self (hk'.trans hk.symm)⟩

end ListsByKey
