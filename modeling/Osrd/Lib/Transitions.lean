import Mathlib.Tactic.Linarith
import Osrd.Lib.BinarySearch

/-! Step functions over a linear order, kept as a list of transitions.

    A transition `(b, v)` says "from `b` on, the value is `v`". A list of transitions sorted by bound,
    together with the value `prev` that holds before the first one, denotes a function of the order
    (`eval`). Two clean-ups change the list and not the function: dropping all but the last of the
    transitions that share a bound (`dedup`), and dropping the transitions that change nothing
    (`dropRep`). A list on which neither has work left is `Canonical`, and canonical lists are equal
    as soon as they denote the same function. -/

namespace Transitions

open List

variable {D V : Type}

/-- Every transition changes the value that holds before it. -/
def Alternates (prev : V) : List (D × V) → Prop
  | [] => True
  | (_, v) :: ts => v ≠ prev ∧ Alternates v ts

/-- Value after the last transition. -/
def lastVal (prev : V) : List (D × V) → V
  | [] => prev
  | (_, v) :: ts => lastVal v ts

theorem lastVal_append (prev : V) : ∀ ts us : List (D × V),
    lastVal prev (ts ++ us) = lastVal (lastVal prev ts) us
  | [], _ => rfl
  | (_, v) :: ts, us => by rw [cons_append, lastVal, lastVal, lastVal_append v ts us]

@[simp] theorem lastVal_concat (prev : V) (ts : List (D × V)) (b : D) (v : V) :
    lastVal prev (ts ++ [(b, v)]) = v := by
  rw [lastVal_append]; rfl

/-! ### No transition without a change -/

section Changes

variable [DecidableEq V]

/-- Drop the transitions to the value that already holds. -/
def dropRep (prev : V) : List (D × V) → List (D × V)
  | [] => []
  | (b, v) :: ts => if v = prev then dropRep prev ts else (b, v) :: dropRep v ts

theorem dropRep_sublist (prev : V) : ∀ ts : List (D × V), (dropRep prev ts).Sublist ts
  | [] => List.Sublist.refl _
  | (b, v) :: ts => by
    rw [dropRep]
    split
    · exact (dropRep_sublist prev ts).cons _
    · exact (dropRep_sublist v ts).cons_cons _

theorem dropRep_alternates (prev : V) : ∀ ts : List (D × V), Alternates prev (dropRep prev ts)
  | [] => trivial
  | (b, v) :: ts => by
    rw [dropRep]
    split
    · exact dropRep_alternates prev ts
    · next hne => exact ⟨hne, dropRep_alternates v ts⟩

theorem dropRep_append (prev : V) : ∀ ts us : List (D × V),
    dropRep prev (ts ++ us) = dropRep prev ts ++ dropRep (lastVal prev ts) us
  | [], _ => rfl
  | (b, v) :: ts, us => by
    rw [cons_append, dropRep, dropRep, lastVal]
    split
    · next hv => subst hv; exact dropRep_append v ts us
    · rw [dropRep_append v ts us, cons_append]

theorem lastVal_dropRep (prev : V) : ∀ ts : List (D × V), lastVal prev (dropRep prev ts) = lastVal prev ts
  | [] => rfl
  | (b, v) :: ts => by
    rw [dropRep]
    split
    · next hv => subst hv; rw [lastVal_dropRep v ts]; rfl
    · rw [lastVal, lastVal_dropRep v ts]; rfl

end Changes

variable [LinearOrder D]

/-- Value at `x` of the step function that is `prev` before the first transition. -/
def eval (prev : V) : List (D × V) → D → V
  | [], _ => prev
  | (b, v) :: ts, x => if x < b then prev else eval v ts x

/-- Transitions sorted by bound; several may share one bound. -/
def Sorted (ts : List (D × V)) : Prop := ts.Pairwise (fun s t => s.1 ≤ t.1)

/-- Transitions sorted by bound, at most one at each bound. -/
def StrictSorted (ts : List (D × V)) : Prop := ts.Pairwise (fun s t => s.1 < t.1)

/-- The normal form of a step function. -/
structure Canonical (prev : V) (ts : List (D × V)) : Prop where
  sorted : StrictSorted ts
  alternates : Alternates prev ts

variable {ts : List (D × V)}

theorem StrictSorted.sorted (h : StrictSorted ts) : Sorted ts :=
  List.Pairwise.imp le_of_lt h

theorem Sorted.tail {t : D × V} (h : Sorted (t :: ts)) : Sorted ts :=
  (pairwise_cons.mp h).2

theorem StrictSorted.tail {t : D × V} (h : StrictSorted (t :: ts)) :
    StrictSorted ts :=
  (pairwise_cons.mp h).2

/-! ### Cutting a sorted list at a bound -/

/-- A condition that, once failed, fails from there on cuts the list in two. -/
theorem Sorted.cut {p : D → Prop} [DecidablePred p] (hp : ∀ {a b}, a ≤ b → p b → p a) :
    ∀ {ts : List (D × V)}, Sorted ts → ∃ A C, ts = A ++ C ∧ (∀ t ∈ A, p t.1) ∧ ∀ t ∈ C, ¬ p t.1
  | [], _ => ⟨[], [], rfl, by simp, by simp⟩
  | t :: ts, hs => by
    by_cases ht : p t.1
    · obtain ⟨A, C, rfl, hA, hC⟩ := hs.tail.cut hp
      exact ⟨t :: A, C, rfl, forall_mem_cons.mpr ⟨ht, hA⟩, hC⟩
    · refine ⟨[], t :: ts, rfl, by simp, forall_mem_cons.mpr ⟨ht, fun s hmem hs' => ?_⟩⟩
      exact ht (hp ((pairwise_cons.mp hs).1 s hmem) hs')

theorem Sorted.cut_lt (x : D) (hs : Sorted ts) :
    ∃ A C, ts = A ++ C ∧ (∀ t ∈ A, t.1 < x) ∧ ∀ t ∈ C, x ≤ t.1 := by
  simpa using hs.cut (p := (· < x)) lt_of_le_of_lt

theorem Sorted.cut_le (x : D) (hs : Sorted ts) :
    ∃ A C, ts = A ++ C ∧ (∀ t ∈ A, t.1 ≤ x) ∧ ∀ t ∈ C, x < t.1 := by
  simpa using hs.cut (p := (· ≤ x)) le_trans

/-- A strictly sorted list has one transition at a bound, or none. -/
theorem StrictSorted.cut_eq (x : D) (hs : StrictSorted ts) :
    ∃ A C, (∀ t ∈ A, t.1 < x) ∧ (∀ t ∈ C, x < t.1) ∧ (ts = A ++ C ∨ ∃ v, ts = A ++ (x, v) :: C) := by
  obtain ⟨A, C, hA, hC, hts⟩ := BinarySearch.exists_cut Prod.fst x hs
  refine ⟨A, C, hA, hC, hts.imp_right ?_⟩
  rintro ⟨⟨_, v⟩, rfl, rfl⟩
  exact ⟨v, rfl⟩

/-! ### Evaluation -/

theorem eval_of_lt {prev : V} : ∀ {ts : List (D × V)} {x : D}, (∀ t ∈ ts, x < t.1) → eval prev ts x = prev
  | [], _, _ => rfl
  | (b, v) :: ts, x, h => by rw [eval, if_pos (h (b, v) mem_cons_self)]

theorem eval_append {prev : V} : ∀ {ts us : List (D × V)} {x : D}, (∀ t ∈ ts, t.1 ≤ x) →
    eval prev (ts ++ us) x = eval (lastVal prev ts) us x
  | [], _, _, _ => rfl
  | (b, v) :: ts, us, x, h => by
    have hb : ¬ x < b := (h (b, v) mem_cons_self).not_gt
    rw [cons_append, eval, if_neg hb, lastVal]
    exact eval_append (forall_mem_cons.mp h).2

theorem eval_append_of_lt {prev : V} : ∀ {ts us : List (D × V)} {x : D}, (∀ t ∈ us, x < t.1) →
    eval prev (ts ++ us) x = eval prev ts x
  | [], us, x, h => by rw [nil_append, eval_of_lt h, eval]
  | (b, v) :: ts, us, x, h => by
    rw [cons_append, eval, eval]
    split
    · rfl
    · exact eval_append_of_lt h

/-- Past every bound the value is the last one. -/
theorem eval_of_le {prev : V} {x : D} (h : ∀ t ∈ ts, t.1 ≤ x) :
    eval prev ts x = lastVal prev ts := by
  have happ := @eval_append D V _ prev ts [] x h
  rwa [append_nil] at happ

/-! ### Writing one range -/

variable {A A' B C : List (D × V)} {l u x : D} {v w prev : V}

/-- A value that agrees with the list at `u`, unless the list has a transition there, is the one the list
    leaves off with before `u`. -/
theorem Sorted.resumed (hs : Sorted (A ++ C)) (hA : ∀ t ∈ A, t.1 < u) (hC : ∀ t ∈ C, u ≤ t.1)
    (hw : (∀ t ∈ A ++ C, t.1 ≠ u) → w = eval prev (A ++ C) u) :
    w = lastVal prev A ∨ ∃ c ∈ C.head?, c.1 = u := by
  by_cases hfresh : ∀ t ∈ C, t.1 ≠ u
  · left
    have hlt : ∀ t ∈ C, u < t.1 := fun t ht => lt_of_le_of_ne (hC t ht) (hfresh t ht).symm
    rw [hw (forall_mem_append.mpr ⟨fun t ht => (hA t ht).ne, hfresh⟩),
      eval_append_of_lt hlt, eval_of_le fun t ht => (hA t ht).le]
  · right
    push Not at hfresh
    obtain ⟨t, ht, htu⟩ := hfresh
    obtain ⟨c, C', rfl⟩ := exists_cons_of_ne_nil (ne_nil_of_mem ht)
    refine ⟨c, rfl, le_antisymm ?_ (hC c mem_cons_self)⟩
    have hsC := (pairwise_append.mp hs).2.1
    rcases mem_cons.mp ht with rfl | ht
    · exact htu.le
    · exact htu ▸ (pairwise_cons.mp hsC).1 t ht

/-- Writing `v` between the cuts at `l` and `u`, where the old value `w` takes over again at `u`. -/
theorem eval_overwrite (hlu : l < u) (hA : ∀ t ∈ A, t.1 ≤ l) (hB : ∀ t ∈ B, l ≤ t.1 ∧ t.1 < u)
    (hC : ∀ t ∈ C, u ≤ t.1) (hw : w = lastVal prev (A ++ B) ∨ ∃ c ∈ C.head?, c.1 = u) (y : D) :
    eval prev (A ++ (l, v) :: (u, w) :: C) y = if l ≤ y ∧ y < u then v else eval prev (A ++ B ++ C) y := by
  by_cases h1 : y < l
  · -- left of the range only `A` counts
    have hC' : ∀ t ∈ C, y < t.1 := fun t ht => h1.trans (hlu.trans_le (hC t ht))
    have hBC : ∀ t ∈ B ++ C, y < t.1 := forall_mem_append.mpr ⟨fun t ht => h1.trans_le (hB t ht).1, hC'⟩
    have hnew : ∀ t ∈ (l, v) :: (u, w) :: C, y < t.1 :=
      forall_mem_cons.mpr ⟨h1, forall_mem_cons.mpr ⟨h1.trans hlu, hC'⟩⟩
    rw [if_neg fun h => not_le.mpr h1 h.1, eval_append_of_lt hnew, append_assoc, eval_append_of_lt hBC]
  · have hA' : ∀ t ∈ A, t.1 ≤ y := fun t ht => (hA t ht).trans (not_lt.mp h1)
    rw [eval_append hA', eval, if_neg h1, eval]
    by_cases h2 : y < u
    · rw [if_pos h2, if_pos ⟨not_lt.mp h1, h2⟩]
    · -- right of the range the old transitions from `u` on count
      have hAB : ∀ t ∈ A ++ B, t.1 ≤ y :=
        forall_mem_append.mpr ⟨hA', fun t ht => (hB t ht).2.le.trans (not_lt.mp h2)⟩
      rw [if_neg h2, if_neg fun h => h2 h.2, eval_append hAB]
      rcases hw with rfl | ⟨c, hc, rfl⟩
      · rfl
      · obtain ⟨C', rfl⟩ := head?_eq_some_iff.mp hc
        rw [eval, eval, if_neg h2, if_neg h2]

theorem Sorted.insert (hs : Sorted (A ++ C)) (hA : ∀ t ∈ A, t.1 ≤ x) (hC : ∀ t ∈ C, x ≤ t.1)
    (v : V) : Sorted (A ++ (x, v) :: C) := by
  obtain ⟨hsA, hsC, hAC⟩ := pairwise_append.mp hs
  refine pairwise_append.mpr ⟨hsA, pairwise_cons.mpr ⟨hC, hsC⟩, fun a ha t ht => ?_⟩
  rcases mem_cons.mp ht with rfl | ht
  · exact hA a ha
  · exact hAC a ha t ht

/-- A first transition to the value already held changes nothing. -/
theorem eval_cons_self (hC : ∀ t ∈ C, x ≤ t.1) (y : D) :
    eval prev ((x, prev) :: C) y = eval prev C y := by
  rw [eval]
  split
  · next hy => exact (eval_of_lt fun t ht => hy.trans_le (hC t ht)).symm
  · rfl

/-- A single transition at `x`, after the others there, holds until the next bound `c`. -/
theorem eval_insert {c : D × V} (hA : ∀ t ∈ A, t.1 ≤ x) (hA' : ∀ t ∈ A', t.1 ≤ x)
    (hagree : ∀ y, y < x → eval prev A' y = eval prev A y) (hC : ∀ t ∈ c :: C, c.1 ≤ t.1)
    (hc : x ≤ c.1) (y : D) : eval prev (A' ++ (x, v) :: c :: C) y =
      if x ≤ y ∧ y < c.1 then v else eval prev (A ++ c :: C) y := by
  obtain ⟨b, z⟩ := c
  by_cases h1 : y < x
  · have hnew : ∀ t ∈ (b, z) :: C, y < t.1 := fun t ht => h1.trans_le (le_trans hc (hC t ht))
    rw [if_neg fun h => not_le.mpr h1 h.1,
      eval_append_of_lt (forall_mem_cons.mpr ⟨h1, hnew⟩), eval_append_of_lt hnew, hagree y h1]
  · have hle := not_lt.mp h1
    rw [eval_append fun t ht => (hA' t ht).trans hle, eval, if_neg h1, eval]
    by_cases h2 : y < b
    · rw [if_pos h2, if_pos ⟨hle, h2⟩]
    · rw [if_neg h2, if_neg fun h => h2 h.2, eval_append fun t ht => (hA t ht).trans hle, eval, if_neg h2]

/-! ### One transition per bound -/

/-- Of the consecutive transitions at one bound, keep the last. -/
def dedup : List (D × V) → List (D × V)
  | [] => []
  | [t] => [t]
  | t :: u :: ts => if t.1 = u.1 then dedup (u :: ts) else t :: dedup (u :: ts)

theorem dedup_subset : ∀ (ts : List (D × V)), dedup ts ⊆ ts
  | [] => List.Subset.refl _
  | [t] => List.Subset.refl _
  | t :: u :: ts => by
    have ih := dedup_subset (u :: ts)
    rw [dedup]
    split
    · exact subset_cons_of_subset _ ih
    · exact cons_subset_cons _ ih

theorem eval_dedup (prev : V) : ∀ {ts : List (D × V)} (_ : Sorted ts) (x : D),
    eval prev (dedup ts) x = eval prev ts x
  | [], _, _ => rfl
  | [t], _, _ => rfl
  | (b, v) :: (c, w) :: ts, hs, x => by
    rw [dedup]
    by_cases hbc : b = c
    · subst hbc
      rw [if_pos rfl, eval_dedup prev hs.tail x]
      simp only [eval]
      split <;> rfl
    · rw [if_neg hbc]
      simp only [eval, eval_dedup v hs.tail x]

theorem dedup_strictSorted : ∀ {ts : List (D × V)}, Sorted ts → StrictSorted (dedup ts)
  | [], _ => .nil
  | [t], _ => pairwise_singleton _ _
  | t :: u :: ts, hs => by
    have ih := dedup_strictSorted hs.tail
    rw [dedup]
    split
    · exact ih
    · next hne =>
      refine pairwise_cons.mpr ⟨fun s hmem => ?_, ih⟩
      have htu : t.1 < u.1 := lt_of_le_of_ne ((pairwise_cons.mp hs).1 u mem_cons_self) hne
      rcases mem_cons.mp (dedup_subset _ hmem) with rfl | hst
      · exact htu
      · exact htu.trans_le ((pairwise_cons.mp hs.tail).1 s hst)

/-! ### Normal forms -/

section Canonical

variable [DecidableEq V]

theorem dropRep_canonical (prev : V) (hs : StrictSorted ts) :
    Canonical prev (dropRep prev ts) :=
  ⟨hs.sublist (dropRep_sublist prev ts), dropRep_alternates prev ts⟩

theorem eval_dropRep (prev : V) : ∀ {ts : List (D × V)} (_ : Sorted ts) (x : D),
    eval prev (dropRep prev ts) x = eval prev ts x
  | [], _, _ => rfl
  | (b, v) :: ts, hs, x => by
    rw [dropRep]
    by_cases hv : v = prev
    · subst hv
      rw [if_pos rfl, eval_dropRep v hs.tail x, eval]
      split
      · next hx =>
        exact eval_of_lt fun t ht => hx.trans_le ((pairwise_cons.mp hs).1 t ht)
      · rfl
    · rw [if_neg hv, eval, eval, eval_dropRep v hs.tail x]

end Canonical

theorem Canonical.tail {prev : V} {b : D} {v : V} (h : Canonical prev ((b, v) :: ts)) : Canonical v ts :=
  ⟨h.sorted.tail, h.alternates.2⟩

theorem eval_head {prev : V} {b : D} {v : V}
    (h : StrictSorted ((b, v) :: ts)) : eval prev ((b, v) :: ts) b = v := by
  rw [eval, if_neg (lt_irrefl b)]
  exact eval_of_lt fun t ht => (pairwise_cons.mp h).1 t ht

/-- Before the first bound the function has its initial value, so the first transition of a canonical
    list cannot come before the first transition of another list for the same function. -/
theorem Canonical.head_le {prev : V} {b c : D} {v w : V} {ts us : List (D × V)}
    (h : Canonical prev ((b, v) :: ts)) (heq : ∀ x, eval prev ((b, v) :: ts) x =
      eval prev ((c, w) :: us) x) : c ≤ b := by
  by_contra hlt
  have hb := heq b
  rw [eval_head h.sorted, eval, if_pos (not_le.mp hlt)] at hb
  exact h.alternates.1 hb

/-- Canonical lists are determined by their function. -/
theorem Canonical.ext {prev : V} : ∀ {ts us : List (D × V)}, Canonical prev ts →
    Canonical prev us → (∀ x, eval prev ts x = eval prev us x) → ts = us
  | [], [], _, _, _ => rfl
  | [], (c, w) :: us, _, hu, heq => by
    have hc := heq c
    rw [eval_head hu.sorted] at hc
    exact absurd hc.symm hu.alternates.1
  | (b, v) :: ts, [], ht, _, heq => by
    have hb := heq b
    rw [eval_head ht.sorted] at hb
    exact absurd hb ht.alternates.1
  | (b, v) :: ts, (c, w) :: us, ht, hu, heq => by
    obtain rfl : b = c := le_antisymm (hu.head_le fun x => (heq x).symm) (ht.head_le heq)
    have hv : v = w := by
      have := heq b
      rwa [eval_head ht.sorted, eval_head hu.sorted] at this
    subst hv
    have htail : ts = us := by
      refine Canonical.ext ht.tail hu.tail fun x => ?_
      by_cases hx : x < b
      · rw [eval_of_lt fun t hm => hx.trans ((pairwise_cons.mp ht.sorted).1 t hm),
          eval_of_lt fun t hm => hx.trans ((pairwise_cons.mp hu.sorted).1 t hm)]
      · have := heq x
        rwa [eval, eval, if_neg hx, if_neg hx] at this
    rw [htail]

end Transitions
