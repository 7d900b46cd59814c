import Mathlib

/-! Loops that go from place to place until they have an answer, with nothing that remembers where they have
    been.

    A state is at a place, and the place alone decides where the next step goes. When finitely many places
    can be reached, the loop ends exactly when none of them is on a cycle: a place that is left is not
    reached again, so each step leaves fewer of them. -/

namespace FiniteWalk

open Relation (ReflTransGen TransGen)

variable {State Answer Place : Type} {step : State → Answer ⊕ State} {place : State → Place}
  {Link : Place → Place → Prop}

/-- The loop, for a number of steps; `none` if it goes on after them. -/
def run (step : State → Answer ⊕ State) : ℕ → State → Option Answer
  | 0, _ => none
  | n + 1, s =>
      match step s with
      | .inl answer => some answer
      | .inr s' => run step n s'

/-- The steps follow the links between the places: there is at most one from each, and none where the loop
    ends. -/
structure Follows (step : State → Answer ⊕ State) (place : State → Place) (Link : Place → Place → Prop) :
    Prop where
  next : ∀ s s', step s = .inr s' → ∀ c, Link (place s) c ↔ c = place s'
  stop : ∀ s answer, step s = .inl answer → ∀ c, ¬ Link (place s) c

/-- A loop that never comes back to a place it can reach ends. -/
theorem Follows.exists_run (h : Follows step place Link) : ∀ {k : ℕ} {s : State} {places : Finset Place},
    places.card ≤ k → (∀ c, ReflTransGen Link (place s) c → c ∈ places ∧ ¬ TransGen Link c c) →
    ∃ n, (run step n s).isSome
  | 0, s, places, hcard, hplaces => by
    have hmem := (hplaces (place s) .refl).1
    rw [Finset.card_eq_zero.mp (Nat.le_zero.mp hcard)] at hmem
    exact absurd hmem (Finset.notMem_empty _)
  | k + 1, s, places, hcard, hplaces => by
    classical
    cases hstep : step s with
    | inl answer => exact ⟨1, by simp [run, hstep]⟩
    | inr s' =>
      have hlink : Link (place s) (place s') := (h.next s s' hstep _).mpr rfl
      obtain ⟨hmem, hcycle⟩ := hplaces (place s) .refl
      have hleft : ∀ c, ReflTransGen Link (place s') c → c ∈ places.erase (place s) ∧
          ¬ TransGen Link c c := by
        intro c hc
        obtain ⟨hc', hacyclic⟩ := hplaces c (hc.head hlink)
        refine ⟨Finset.mem_erase.mpr ⟨?_, hc'⟩, hacyclic⟩
        rintro rfl
        exact hcycle (.head' hlink hc)
      have hcard' : (places.erase (place s)).card ≤ k := by
        rw [Finset.card_erase_of_mem hmem]
        omega
      obtain ⟨n, hn⟩ := h.exists_run hcard' hleft
      exact ⟨n + 1, by simpa [run, hstep] using hn⟩

/-- A loop that can reach a cycle does not end. -/
theorem Follows.run_eq_none (h : Follows step place Link) : ∀ (n : ℕ) {s : State} {c : Place},
    ReflTransGen Link (place s) c → TransGen Link c c → run step n s = none
  | 0, _, _, _, _ => rfl
  | n + 1, s, c, hreach, hcycle => by
    -- one more link leads on, and the cycle is still ahead
    obtain ⟨d, hlink, hd⟩ : ∃ d, Link (place s) d ∧ ReflTransGen Link d c := by
      rcases ReflTransGen.cases_head hreach with rfl | hstep
      · exact TransGen.head'_iff.mp hcycle
      · exact hstep
    cases hstep : step s with
    | inl answer => exact absurd hlink (h.stop s answer hstep d)
    | inr s' =>
      obtain rfl := (h.next s s' hstep d).mp hlink
      simpa [run, hstep] using h.run_eq_none n hd hcycle

/-- The loop ends exactly when no place that it can reach is on a cycle. -/
theorem Follows.run_isSome_iff (h : Follows step place Link) {s : State} {places : Finset Place}
    (hplaces : ∀ c, ReflTransGen Link (place s) c → c ∈ places) :
    (∃ n, (run step n s).isSome) ↔ ∀ c, ReflTransGen Link (place s) c → ¬ TransGen Link c c := by
  constructor
  · rintro ⟨n, hn⟩ c hreach hcycle
    rw [h.run_eq_none n hreach hcycle] at hn
    exact nomatch hn
  · exact fun hacyclic => h.exists_run le_rfl fun c hc => ⟨hplaces c hc, hacyclic c hc⟩

end FiniteWalk
