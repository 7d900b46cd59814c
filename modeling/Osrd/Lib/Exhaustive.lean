import Mathlib

/-! A search that goes through everything: a queue of nodes to go on from, in whatever order it is polled,
    and the goals found so far.

    When each successor has a smaller rank than its node, the search ends (`exists_search`), and what a step
    keeps of the queue and of the goals found holds at the end. -/

namespace Exhaustive

open Multiset

/-- A queue that is polled in some order. -/
structure Poll (N : Type) where
  poll : List N → Option (N × List N)
  eq_nil {queue : List N} : poll queue = none → queue = []
  perm {queue : List N} {n : N} {rest : List N} : poll queue = some (n, rest) → queue.Perm (n :: rest)

variable {N : Type} {succ : N → Option (List N)} {next : N → List N} {goal : N → Bool} {rank : N → ℕ}

/-- The search, for a number of steps; `none` if it goes on after them or if a step fails. -/
def search (queue : Poll N) (succ : N → Option (List N)) (goal : N → Bool) : ℕ → List N → List N →
    Option (List N)
  | 0, _, _ => none
  | fuel + 1, nodes, found =>
      match queue.poll nodes with
      | none => some found
      | some (node, rest) => do
          let successors ← succ node
          search queue succ goal fuel (rest ++ successors.filter (!goal ·)) (found ++ successors.filter goal)

/-- The ranks of the nodes go down when a node is replaced by its successors. -/
theorem ranks_lt (hrank : ∀ n, ∀ m ∈ next n, rank m < rank n) {nodes rest : List N} {n : N}
    (hperm : nodes.Perm (n :: rest)) :
    Multiset.IsDershowitzMannaLT (((rest ++ (next n).filter (!goal ·)).map rank : List ℕ) : Multiset ℕ)
      ((nodes.map rank : List ℕ) : Multiset ℕ) := by
  refine ⟨(rest.map rank : List ℕ), (((next n).filter (!goal ·)).map rank : List ℕ), {rank n},
    singleton_ne_zero _, by simp, ?_, ?_⟩
  · rw [coe_eq_coe.mpr (hperm.map rank), List.map_cons, ← cons_coe, add_comm, singleton_add]
  · intro r hr
    obtain ⟨m, hm, rfl⟩ := List.mem_map.mp (mem_coe.mp hr)
    exact ⟨rank n, mem_singleton_self _, hrank n m (List.mem_of_mem_filter hm)⟩

/-- The search ends, and keeps what its steps keep. -/
theorem exists_search (queue : Poll N) (hsucc : ∀ n, succ n = some (next n))
    (hrank : ∀ n, ∀ m ∈ next n, rank m < rank n) {Inv : List N → List N → Prop}
    (hstep : ∀ {nodes n rest found}, nodes.Perm (n :: rest) → Inv nodes found →
      Inv (rest ++ (next n).filter (!goal ·)) (found ++ (next n).filter goal))
    (nodes found : List N) (h : Inv nodes found) : ∃ bound result, Inv [] result ∧
      ∀ fuel, bound ≤ fuel → search queue succ goal fuel nodes found = some result := by
  have hwf : WellFounded (@Multiset.IsDershowitzMannaLT ℕ _) := wellFounded_isDershowitzMannaLT
  generalize hranks : ((nodes.map rank : List ℕ) : Multiset ℕ) = ranks
  induction ranks using hwf.induction generalizing nodes found with
  | _ ranks ih =>
    cases hpoll : queue.poll nodes with
    | none =>
      refine ⟨1, found, queue.eq_nil hpoll ▸ h, fun fuel hfuel => ?_⟩
      obtain ⟨fuel, rfl⟩ := Nat.exists_eq_add_of_le' hfuel
      rw [search, hpoll]
    | some polled =>
      obtain ⟨n, rest⟩ := polled
      have hperm := queue.perm hpoll
      obtain ⟨bound, result, hinv, hresult⟩ := ih _ (hranks ▸ ranks_lt hrank hperm) _ _ (hstep hperm h) rfl
      refine ⟨bound + 1, result, hinv, fun fuel hfuel => ?_⟩
      obtain ⟨fuel, rfl⟩ := Nat.exists_eq_add_of_le' hfuel
      rw [← Nat.add_assoc, search, hpoll]
      simpa [hsucc] using hresult (fuel + bound) (Nat.le_add_left _ _)

end Exhaustive
