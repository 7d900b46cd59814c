import Mathlib.Order.WithBot
import Mathlib.Order.Bounds.Basic
import Mathlib.Order.MinMax

/-! The first free point at or after a start, in a linear order with a point at infinity.

    A search that jumps forward over points it knows not to be free (`Skips`) and stops at a free point
    has found the first one; infinity stands for "there is none". -/

namespace LeastFree

variable {α : Type} [LinearOrder α]

/-- No point from `d` up to `e` is free. -/
def Skips (free : Set α) (d e : WithTop α) : Prop :=
  ∀ x : α, d ≤ x → (x : WithTop α) < e → x ∉ free

/-- `r` is the first free point from `d` on, `⊤` if there is none. -/
structure FirstFree (free : Set α) (d r : WithTop α) : Prop where
  le : d ≤ r
  skips : Skips free d r
  free : ∀ x : α, r = x → x ∈ free

variable {free : Set α} {d e r : WithTop α}

theorem Skips.refl (free : Set α) (d : WithTop α) : Skips free d d :=
  fun _ hx hx' => absurd hx' hx.not_gt

theorem Skips.trans (h : Skips free d e) (h' : Skips free e r) : Skips free d r := by
  intro x hx hxr
  rcases lt_or_ge (x : WithTop α) e with hxe | hxe
  · exact h x hx hxe
  · exact h' x hxe hxr

theorem Skips.firstFree (h : Skips free d e) (hde : d ≤ e) (h' : FirstFree free e r) :
    FirstFree free d r :=
  ⟨hde.trans h'.le, h.trans h'.skips, h'.free⟩

theorem FirstFree.unique {r' : WithTop α} (h : FirstFree free d r) (h' : FirstFree free d r') :
    r = r' := by
  have hle : ∀ {r r' : WithTop α}, FirstFree free d r → FirstFree free d r' → r ≤ r' := by
    intro r r' h h'
    by_contra hlt
    obtain ⟨x, rfl⟩ := WithTop.ne_top_iff_exists.mp (ne_top_of_lt (not_le.mp hlt))
    exact h.skips x h'.le (not_le.mp hlt) (h'.free x rfl)
  exact le_antisymm (hle h h') (hle h' h)

theorem FirstFree.empty {x : α} (h : FirstFree free x ⊤) : ∀ z, x ≤ z → z ∉ free :=
  fun z hz => h.skips z (WithTop.coe_le_coe.mpr hz) (WithTop.coe_lt_top z)

/-- From `d` on every point up to `r` is free, and `r` is the last such point; `⊤` if they all are. -/
structure FreeUntil (free : Set α) (d : α) (r : WithTop α) : Prop where
  le : (d : WithTop α) ≤ r
  iff : ∀ e, d ≤ e → ((∀ x, d ≤ x → x ≤ e → x ∈ free) ↔ (e : WithTop α) ≤ r)

theorem FreeUntil.mem {d : α} (h : FreeUntil free d r) : d ∈ free :=
  (h.iff d le_rfl).mpr h.le d le_rfl le_rfl

theorem FreeUntil.inter {free' : Set α} {d : α} {r' : WithTop α} (h : FreeUntil free d r)
    (h' : FreeUntil free' d r') : FreeUntil (free ∩ free') d (min r r') := by
  refine ⟨le_min h.le h'.le, fun e he => ?_⟩
  rw [le_min_iff, ← h.iff e he, ← h'.iff e he]
  exact ⟨fun hall => ⟨fun x hx hxe => (hall x hx hxe).1, fun x hx hxe => (hall x hx hxe).2⟩,
    fun hall x hx hxe => ⟨hall.1 x hx hxe, hall.2 x hx hxe⟩⟩

end LeastFree
