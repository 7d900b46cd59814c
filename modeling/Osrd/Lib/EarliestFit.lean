import Mathlib.Order.Lattice
import Mathlib.Data.List.Forall2

/-! Requests placed one after another, each at a position that is allowed for it, never before the
    position of the request before.

    Taking the earliest allowed position every time (`earliest`) is never behind any other placement,
    request by request, so it also places the most requests. -/

namespace EarliestFit

open List

variable {S P : Type} [LinearOrder P]

/-- The requests are placed at the positions, in order and from `lo` on. -/
inductive Placed (allowed : S → P → Prop) : P → List S → List P → Prop
  | nil (lo : P) : Placed allowed lo [] []
  | cons {lo p : P} {s : S} {ss : List S} {ps : List P} : lo ≤ p → allowed s p →
      Placed allowed p ss ps → Placed allowed lo (s :: ss) (p :: ps)

/-- The earliest position allowed for a request, from a position on. -/
structure IsEarliest (allowed : S → P → Prop) (first : S → P → Option P) : Prop where
  sound {s : S} {lo p : P} : first s lo = some p → lo ≤ p ∧ allowed s p
  le {s : S} {lo p q : P} : first s lo = some p → lo ≤ q → allowed s q → p ≤ q
  none {s : S} {lo q : P} : first s lo = none → lo ≤ q → ¬ allowed s q

/-- Place the requests as early as possible, until one does not fit. -/
def earliest (first : S → P → Option P) : P → List S → List P
  | _, [] => []
  | lo, s :: ss =>
      match first s lo with
      | none => []
      | some p => p :: earliest first p ss

variable {allowed : S → P → Prop} {first : S → P → Option P}

variable {ss : List S} {ps : List P}

namespace Placed

theorem mono {lo lo' : P} (hlo : lo' ≤ lo) : ∀ {ss : List S} {ps : List P},
    Placed allowed lo ss ps → Placed allowed lo' ss ps
  | _, _, .nil _ => .nil lo'
  | _, _, .cons hle hp h => .cons (hlo.trans hle) hp h

variable {lo : P} (h : Placed allowed lo ss ps)

include h in
theorem forall₂ : List.Forall₂ (fun s p => lo ≤ p ∧ allowed s p) ss ps := by
  induction h with
  | nil => exact .nil
  | cons hle hp _ ih => exact .cons ⟨hle, hp⟩ (ih.imp fun _ _ h => ⟨hle.trans h.1, h.2⟩)

include h in
theorem lo_le : ∀ p ∈ ps, lo ≤ p := by
  induction h with
  | nil => intro p hp; simp at hp
  | cons hle _ _ ih =>
    intro q hq
    rcases mem_cons.mp hq with rfl | hq
    · exact hle
    · exact hle.trans (ih q hq)

include h in
theorem pairwise : ps.Pairwise (· ≤ ·) := by
  induction h with
  | nil => exact .nil
  | cons _ _ h ih => exact .cons h.lo_le ih

/-- The placements are the lists of allowed positions in order. -/
theorem of_forall₂ (h : List.Forall₂ allowed ss ps) :
    ∀ {lo : P}, ps.Pairwise (· ≤ ·) → (∀ p ∈ ps, lo ≤ p) → Placed allowed lo ss ps := by
  induction h with
  | nil => intro lo _ _; exact .nil lo
  | cons hp _ ih =>
    intro lo hordered hlo
    obtain ⟨hle, hordered⟩ := pairwise_cons.mp hordered
    exact .cons (hlo _ mem_cons_self) hp (ih hordered hle)

include h in
theorem drop (n : ℕ) : Placed allowed lo (ss.drop n) (ps.drop n) := by
  induction h generalizing n with
  | nil lo => simpa using nil lo
  | cons hle hp h ih =>
    cases n with
    | zero => exact .cons hle hp h
    | succ n => exact (ih n).mono hle

include h in
theorem exists_allowed : ∀ p ∈ ps, ∃ s, allowed s p := by
  induction h with
  | nil => intro p hp; simp at hp
  | cons _ hp _ ih =>
    intro q hq
    rcases mem_cons.mp hq with rfl | hq
    · exact ⟨_, hp⟩
    · exact ih q hq

/-- Only the positions that are used have to be allowed. -/
theorem imp_mem {allowed' : S → P → Prop} {lo : P} (h : Placed allowed lo ss ps)
    (himp : ∀ s, ∀ p ∈ ps, allowed s p → allowed' s p) : Placed allowed' lo ss ps := by
  induction h with
  | nil lo => exact .nil lo
  | cons hle hp _ ih =>
    refine .cons hle (himp _ _ mem_cons_self hp) (ih ?_)
    intro s p hmem
    exact himp s p (mem_cons_of_mem _ hmem)

end Placed

theorem earliest_placed (hfirst : IsEarliest allowed first) : ∀ (lo : P) (ss : List S),
    Placed allowed lo (ss.take (earliest first lo ss).length) (earliest first lo ss)
  | lo, [] => .nil lo
  | lo, s :: ss => by
    rw [earliest]
    cases hs : first s lo with
    | none => exact .nil lo
    | some p =>
      obtain ⟨hle, hp⟩ := hfirst.sound hs
      exact .cons hle hp (earliest_placed hfirst p ss)

/-- No placement of the first requests is longer, or earlier anywhere. -/
theorem earliest_stays_ahead (hfirst : IsEarliest allowed first) : ∀ {lo : P} {ss : List S} {k : ℕ}
    {ps : List P}, Placed allowed lo (ss.take k) ps →
    List.Forall₂ (· ≤ ·) ((earliest first lo ss).take ps.length) ps
  | lo, [], k, _, h => by
    rw [take_nil] at h
    cases h
    exact .nil
  | lo, s :: ss, 0, _, h => by
    cases h
    exact .nil
  | lo, s :: ss, k + 1, _, h => by
    rw [take_succ_cons] at h
    obtain _ | ⟨hle, hp, h⟩ := h
    rw [earliest]
    cases hs : first s lo with
    | none => exact absurd hp (hfirst.none hs hle)
    | some q =>
      have hq := hfirst.le hs hle hp
      exact .cons hq (earliest_stays_ahead hfirst (h.mono hq))

theorem length_le_earliest (hfirst : IsEarliest allowed first) {lo : P} {k : ℕ}
    (h : Placed allowed lo (ss.take k) ps) : ps.length ≤ (earliest first lo ss).length := by
  have hlength := (earliest_stays_ahead hfirst h).length_eq
  rw [length_take] at hlength
  omega

end EarliestFit
