import Mathlib.Data.Int.Notation
import Mathlib.Data.List.Basic

/-! Texts that end with numbers separated by dots. A number has no dot in it, so the numbers and what stands
    before them can be read back. -/

namespace DottedText

theorem toList_nat (n : ℕ) : (toString n).toList = Nat.toDigits 10 n := by
  rw [Nat.toString_eq_ofList_toDigits, String.toList_ofList]

theorem isDigit_of_mem_nat {n : ℕ} {c : Char} (h : c ∈ (toString n).toList) : c.isDigit := by
  rw [toList_nat] at h
  exact Nat.isDigit_of_mem_toDigits (by decide) (by decide) h

theorem dot_notMem_nat (n : ℕ) : '.' ∉ (toString n).toList := by
  intro h
  have hdigit := isDigit_of_mem_nat h
  simp at hdigit

/-- A negative number has its sign in front. -/
theorem toList_int (z : ℤ) : (toString z).toList =
    if 0 ≤ z then (toString z.toNat).toList else '-' :: (toString (-z).toNat).toList := by
  have h : toString z = if 0 ≤ z then toString z.toNat else "-" ++ toString (-z).toNat := Int.repr_eq_if
  rw [h]
  split
  · rfl
  · rw [String.toList_append]
    rfl

theorem dot_notMem_int (z : ℤ) : '.' ∉ (toString z).toList := by
  rw [toList_int]
  split
  · exact dot_notMem_nat _
  · rw [List.mem_cons, not_or]
    exact ⟨by decide, dot_notMem_nat _⟩

/-- The last part of a list with a separator, and what stands before it. -/
theorem append_cons_inj {α : Type} {sep : α} {l l' a a' : List α} (ha : sep ∉ a) (ha' : sep ∉ a')
    (h : l ++ sep :: a = l' ++ sep :: a') : l = l' ∧ a = a' := by
  rcases List.append_eq_append_iff.mp h with ⟨c, rfl, hc⟩ | ⟨c, rfl, hc⟩
  · cases c with
    | nil => exact ⟨by simp, by simpa using hc⟩
    | cons x c =>
      rw [List.cons_append, List.cons.injEq] at hc
      exact absurd (by rw [hc.2]; simp) ha
  · cases c with
    | nil => exact ⟨by simp, by simpa using hc.symm⟩
    | cons x c =>
      rw [List.cons_append, List.cons.injEq] at hc
      exact absurd (by rw [hc.2]; simp) ha'

theorem append_dot_inj {s s' a a' : String} (ha : '.' ∉ a.toList) (ha' : '.' ∉ a'.toList)
    (h : s ++ "." ++ a = s' ++ "." ++ a') : s = s' ∧ a = a' := by
  have hlist : s.toList ++ '.' :: a.toList = s'.toList ++ '.' :: a'.toList := by
    have hcongr := congrArg String.toList h
    simpa [String.toList_append] using hcongr
  obtain ⟨hs, ha⟩ := append_cons_inj ha ha' hlist
  exact ⟨String.toList_inj.mp hs, String.toList_inj.mp ha⟩

end DottedText
