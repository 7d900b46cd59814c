import Mathlib.Algebra.BigOperators.Group.List.Basic
import Mathlib.Algebra.Order.Ring.Int

/-! Lists of intervals that follow each other: each starts where the one before stops. -/

namespace Tiling

open List

variable {α : Type} {start stop : α → ℤ}

/-- The intervals of the list cover what is between the two points, one after the other. -/
def Tiles (start stop : α → ℤ) : ℤ → List α → ℤ → Prop
  | a, [], b => a = b
  | a, x :: xs, b => start x = a ∧ Tiles start stop (stop x) xs b

theorem Tiles.ne_nil {a b : ℤ} {xs : List α} (h : Tiles start stop a xs b) (hne : a ≠ b) : xs ≠ [] := by
  rintro rfl
  exact hne h

theorem tiles_iff_isChain : ∀ {xs : List α} {a b : ℤ}, xs ≠ [] →
    (Tiles start stop a xs b ↔ xs.IsChain (fun x y => start y = stop x) ∧
      xs.head?.map start = some a ∧ xs.getLast?.map stop = some b)
  | [x], a, b, _ => by
    simp only [Tiles, head?_cons, getLast?_singleton, Option.map_some, Option.some.injEq]
    exact ⟨fun h => ⟨.singleton x, h⟩, fun h => h.2⟩
  | x :: y :: xs, a, b, _ => by
    rw [Tiles, tiles_iff_isChain (cons_ne_nil y xs), isChain_cons_cons, getLast?_cons_cons]
    simp only [head?_cons, Option.map_some, Option.some.injEq]
    constructor
    · rintro ⟨ha, hchain, hy, hb⟩
      exact ⟨⟨hy, hchain⟩, ha, hb⟩
    · rintro ⟨⟨hy, hchain⟩, ha, hb⟩
      exact ⟨ha, hchain, hy, hb⟩

theorem Tiles.sum : ∀ {xs : List α} {a b : ℤ}, Tiles start stop a xs b →
    (xs.map fun x => stop x - start x).sum = b - a
  | [], a, b, h => by
    rw [map_nil, sum_nil, ← show a = b from h, Int.sub_self]
  | x :: xs, a, b, ⟨ha, h⟩ => by
    rw [map_cons, sum_cons, h.sum]
    omega

/-- An interval starts where the lengths of those before it add up to. -/
theorem Tiles.start_eq : ∀ {xs : List α} {a b : ℤ} {i : ℕ} {x : α}, Tiles start stop a xs b →
    xs[i]? = some x → start x = a + ((xs.take i).map fun x => stop x - start x).sum
  | y :: xs, a, b, 0, x, ⟨ha, _⟩, hx => by
    cases hx
    simpa using ha
  | y :: xs, a, b, i + 1, x, ⟨ha, h⟩, hx => by
    have ih := h.start_eq hx
    rw [take_succ_cons, map_cons, sum_cons]
    omega

end Tiling
