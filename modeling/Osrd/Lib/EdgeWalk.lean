import Mathlib.Data.List.Chain
import Mathlib.Order.Lattice

/-! Walks as lists of edges, each of which starts where the one before ends.

    When some of the edges are left out, what remains is a walk with the same ends iff every longest run of
    edges that was left out comes back to where it started (`isWalk_filter_iff`). A walk over an order whose
    edges all go forward has its edges in their order, and they cover what is between its ends. -/

namespace EdgeWalk

open List

variable {α β γ : Type} {source target : α → β}

def IsWalk (source target : α → β) : β → List α → β → Prop
  | a, [], b => a = b
  | a, x :: xs, b => source x = a ∧ IsWalk source target (target x) xs b

variable {xs : List α}

namespace IsWalk

theorem append {b c : β} : ∀ {a : β} {xs ys : List α}, IsWalk source target a xs b →
    IsWalk source target b ys c → IsWalk source target a (xs ++ ys) c
  | _, [], _, rfl, h' => h'
  | _, _ :: _, _, ⟨ha, h⟩, h' => ⟨ha, h.append h'⟩

theorem split {c : β} : ∀ {a : β} {xs ys : List α}, IsWalk source target a (xs ++ ys) c →
    ∃ b, IsWalk source target a xs b ∧ IsWalk source target b ys c
  | a, [], _, h => ⟨a, rfl, h⟩
  | _, _ :: _, _, ⟨ha, h⟩ => by
    obtain ⟨b, hb, hc⟩ := h.split
    exact ⟨b, ⟨ha, hb⟩, hc⟩

theorem map (f : β → γ) : ∀ {a b : β} {xs : List α}, IsWalk source target a xs b →
    IsWalk (f ∘ source) (f ∘ target) (f a) xs (f b)
  | _, _, [], h => congrArg f h
  | _, _, _ :: _, ⟨ha, h⟩ => ⟨congrArg f ha, h.map f⟩

theorem of_map {δ : Type} {f : δ → α} : ∀ {a b : β} {xs : List δ},
    IsWalk source target a (xs.map f) b ↔ IsWalk (source ∘ f) (target ∘ f) a xs b
  | _, _, [] => Iff.rfl
  | _, _, _ :: _ => and_congr_right fun _ => of_map

theorem source_head {a b : β} (h : IsWalk source target a xs b) :
    ∀ x ∈ xs.head?, source x = a := by
  cases xs with
  | nil => simp
  | cons x xs => simpa using h.1

theorem target_last {b : β} : ∀ {a : β} {xs : List α}, IsWalk source target a xs b →
    ∀ y ∈ xs.getLast?, target y = b
  | _, [], _ => by simp
  | _, [x], ⟨_, h⟩ => by simpa using show target x = b from h
  | _, _ :: x :: xs, ⟨_, h⟩ => by simpa using h.target_last

/-- A part of a walk that has edges ends where its last edge ends. -/
theorem closed_of_ends {a b : β} {run : List α} (h : IsWalk source target a run b)
    (hclosed : ∀ x ∈ run.head?, ∀ y ∈ run.getLast?, source x = target y) : a = b := by
  cases run with
  | nil => exact h
  | cons x run =>
    obtain ⟨y, hy⟩ := Option.isSome_iff_exists.mp (getLast?_isSome.mpr (cons_ne_nil x run))
    rw [← h.source_head x rfl, hclosed x rfl y hy, h.target_last y hy]

theorem isChain {b : β} : ∀ {a : β} {xs : List α}, IsWalk source target a xs b →
    xs.IsChain fun x y => target x = source y
  | _, [], _ => .nil
  | _, [x], _ => .singleton x
  | _, _ :: _ :: _, ⟨_, h⟩ => .cons_cons h.1.symm h.isChain

/-! ### Walks forward -/

section Forward

variable [LinearOrder β]

theorem source_le {b : β} : ∀ {a : β} {xs : List α}, IsWalk source target a xs b →
    (∀ x ∈ xs, source x < target x) → ∀ x ∈ xs, a ≤ source x
  | _, x :: xs, ⟨ha, h⟩, hlt, y, hy => by
    rw [forall_mem_cons] at hlt
    rcases mem_cons.mp hy with rfl | hy
    · exact ha.ge
    · exact (ha ▸ hlt.1.le).trans (h.source_le hlt.2 y hy)

theorem target_le {b : β} : ∀ {a : β} {xs : List α}, IsWalk source target a xs b →
    (∀ x ∈ xs, source x < target x) → a ≤ b ∧ ∀ x ∈ xs, target x ≤ b
  | _, [], h, _ => ⟨h.le, by simp⟩
  | _, x :: xs, ⟨ha, h⟩, hlt => by
    rw [forall_mem_cons] at hlt
    obtain ⟨hle, hall⟩ := h.target_le hlt.2
    exact ⟨(ha ▸ hlt.1.le).trans hle, forall_mem_cons.mpr ⟨hle, hall⟩⟩

theorem pairwise {b : β} : ∀ {a : β} {xs : List α}, IsWalk source target a xs b →
    (∀ x ∈ xs, source x < target x) → xs.Pairwise fun x y => target x ≤ source y
  | _, [], _, _ => .nil
  | _, x :: xs, ⟨_, h⟩, hlt => by
    rw [forall_mem_cons] at hlt
    exact .cons (h.source_le hlt.2) (h.pairwise hlt.2)

/-- The edges cover all that is between the ends. -/
theorem exists_cover {b : β} : ∀ {a : β} {xs : List α}, IsWalk source target a xs b → xs ≠ [] →
    ∀ p, a ≤ p → p ≤ b → ∃ x ∈ xs, source x ≤ p ∧ p ≤ target x
  | _, x :: xs, ⟨ha, h⟩, _, p, hap, hpb => by
    rcases le_total p (target x) with hp | hp
    · exact ⟨x, mem_cons_self, ha.le.trans hap, hp⟩
    · by_cases hnil : xs = []
      · subst hnil
        exact ⟨x, mem_cons_self, ha.le.trans hap, hpb.trans h.symm.le⟩
      · obtain ⟨y, hy, hcover⟩ := h.exists_cover hnil p hp hpb
        exact ⟨y, mem_cons_of_mem _ hy, hcover⟩

end Forward

end IsWalk

/-- Every longest run of edges that are not kept, unless it is the whole list, ends where it starts. -/
def ClosedRuns (source target : α → β) (keep : α → Prop) (xs : List α) : Prop :=
  ∀ pre run post, xs = pre ++ run ++ post → (∀ x ∈ run, ¬ keep x) → (∀ x ∈ pre.getLast?, keep x) →
    (∀ x ∈ post.head?, keep x) → (pre ≠ [] ∨ post ≠ []) →
    ∀ x ∈ run.head?, ∀ y ∈ run.getLast?, source x = target y

section Filter

variable {keep : α → Prop} [DecidablePred keep]

/-- `a'` is where the walk has come without the edges left out, `a` with them: they meet at each edge that
    is kept. -/
theorem isWalk_filter_of_closed {b : β} : ∀ {xs : List α} {a a' : β}, IsWalk source target a xs b →
    (∀ run post c, xs = run ++ post → (∀ x ∈ run, ¬ keep x) → (∀ x ∈ post.head?, keep x) →
      IsWalk source target a run c → a' = c) →
    (∀ pre run post, xs = pre ++ run ++ post → pre ≠ [] → (∀ x ∈ run, ¬ keep x) →
      (∀ x ∈ pre.getLast?, keep x) → (∀ x ∈ post.head?, keep x) →
      ∀ x ∈ run.head?, ∀ y ∈ run.getLast?, source x = target y) →
    IsWalk source target a' (xs.filter keep) b := by
  intro xs
  induction xs with
  | nil =>
    rintro a a' rfl hfirst -
    exact hfirst [] [] a rfl (by simp) (by simp) rfl
  | cons x xs ih =>
    rintro a a' ⟨rfl, h⟩ hfirst hlater
    by_cases hx : keep x
    · rw [filter_cons_of_pos (by simpa using hx)]
      refine ⟨(hfirst [] (x :: xs) _ rfl (by simp) (by simpa using hx) rfl).symm, ih h ?_ ?_⟩
      · intro run post c heq hrun hpost hwalk
        exact hwalk.closed_of_ends
          (hlater [x] run post (by simp [heq]) (by simp) hrun (by simpa using hx) hpost)
      · intro pre run post heq hne hrun hpre hpost
        refine hlater (x :: pre) run post (by simp [heq]) (by simp) hrun ?_ hpost
        rwa [getLast?_cons_of_ne_nil hne]
    · rw [filter_cons_of_neg (by simpa using hx)]
      refine ih h ?_ ?_
      · intro run post c heq hrun hpost hwalk
        refine hfirst (x :: run) post c (by simp [heq]) ?_ hpost ⟨rfl, hwalk⟩
        exact forall_mem_cons.mpr ⟨hx, hrun⟩
      · intro pre run post heq hne hrun hpre hpost
        refine hlater (x :: pre) run post (by simp [heq]) (by simp) hrun ?_ hpost
        rwa [getLast?_cons_of_ne_nil hne]

theorem getLast?_filter {pre : List α} (h : ∀ x ∈ pre.getLast?, keep x) :
    (pre.filter keep).getLast? = pre.getLast? := by
  induction pre using reverseRecOn with
  | nil => rfl
  | append_singleton pre z _ =>
    have hz : keep z := h z (by simp)
    simp [hz]

theorem closedRuns_of_filter_eq_nil (h : xs.filter keep = []) :
    ClosedRuns source target keep xs := by
  rintro pre run post rfl - hpre hpost hne
  have hnone : ∀ x ∈ pre ++ run ++ post, ¬ keep x := by simpa using filter_eq_nil_iff.mp h
  rcases hne with hne | hne
  · obtain ⟨x, hx⟩ := Option.isSome_iff_exists.mp (getLast?_isSome.mpr hne)
    exact absurd (hpre x hx) (hnone x (by simp [mem_of_getLast? hx]))
  · obtain ⟨x, post, rfl⟩ := exists_cons_of_ne_nil hne
    exact absurd (hpost x rfl) (hnone x (by simp))

theorem isWalk_filter_iff {a b : β} (h : IsWalk source target a xs b) :
    xs.filter keep = [] ∨ IsWalk source target a (xs.filter keep) b ↔ ClosedRuns source target keep xs := by
  constructor
  · rintro (hnil | hkept)
    · exact closedRuns_of_filter_eq_nil hnil
    rintro pre run post rfl hrun hpre hpost -
    obtain ⟨d, hd, hrest⟩ := h.split
    obtain ⟨c, hc, hcd⟩ := hd.split
    have hnone : run.filter keep = [] := filter_eq_nil_iff.mpr (by simpa using hrun)
    rw [filter_append, filter_append, hnone, append_nil] at hkept
    obtain ⟨e, he, hkept⟩ := hkept.split
    -- without the run, the walk comes to both its ends
    have hce : c = e := by
      cases hlast : pre.getLast? with
      | none =>
        obtain rfl := getLast?_eq_none_iff.mp hlast
        exact (show a = c from hc).symm.trans he
      | some z =>
        have hlast' : z ∈ (pre.filter keep).getLast? := by rw [getLast?_filter hpre, hlast]; rfl
        rw [← hc.target_last z hlast, ← he.target_last z hlast']
    have hde : d = e := by
      cases post with
      | nil => exact (show d = b from hrest).trans (show e = b from hkept).symm
      | cons z post =>
        rw [filter_cons_of_pos (by simpa using hpost z rfl)] at hkept
        exact hrest.1.symm.trans hkept.1
    intro x hx y hy
    rw [hcd.source_head x hx, hcd.target_last y hy, hce, hde]
  · intro hclosed
    refine or_iff_not_imp_left.mpr fun hne => isWalk_filter_of_closed h ?_ ?_
    · rintro run post c rfl hrun hpost hwalk
      have hpost' : post ≠ [] := by
        rintro rfl
        exact hne (filter_eq_nil_iff.mpr (by simpa using hrun))
      exact hwalk.closed_of_ends
        (hclosed [] run post (by simp) hrun (by simp) hpost (.inr hpost'))
    · intro pre run post heq hpre' hrun hpre hpost
      exact hclosed pre run post heq hrun hpre hpost (.inl hpre')

end Filter

end EdgeWalk
