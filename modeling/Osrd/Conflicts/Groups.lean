import Mathlib.Combinatorics.SimpleGraph.Connectivity.Connected

/-! Model of the requirement grouping of `core/.../conflicts/Conflicts.kt` (`detectConflicts` on one
    resource).

    The requirements are sorted by begin time, and one pass compares each with the earlier ones that are
    still active. A table sends a requirement to its conflict group, but only the two requirements a group
    is created for are ever entered in it. A reference to a requirement is its index in the sorted list;
    `-1` in the table is `none`. -/

namespace Osrd.Conflicts

/-- The interface of what can conflict: when a requirement begins and ends. -/
class ResourceRequirement (ReqT : Type) (Time : outParam Type) where
  beginTime : ReqT → Time
  endTime : ReqT → Time

open ResourceRequirement List Function Nat

/-! ### The sweep -/

/-- `conflictGroups` and the lookup table from requirement to conflict group index. -/
structure ConflictGroups where
  conflictGroups : List (List ℕ)
  conflictGroupMap : ℕ → Option ℕ

namespace ConflictGroups

def empty : ConflictGroups := ⟨[], fun _ => none⟩

/-- Body of the inner loop, for an active requirement that conflicts: create its group, or add the
    requirement to it unless this was done already (`conflictingGroups`). -/
def join (requirementIndex : ℕ) (st : ConflictGroups × List ℕ) (activeRequirementIndex : ℕ) :
    ConflictGroups × List ℕ :=
  let (groups, conflictingGroups) := st
  match groups.conflictGroupMap activeRequirementIndex with
  | none =>
      let size := groups.conflictGroups.length
      (⟨groups.conflictGroups ++ [[activeRequirementIndex, requirementIndex]],
        update (update groups.conflictGroupMap activeRequirementIndex (some size))
          requirementIndex (some size)⟩, conflictingGroups)
  | some conflictGroup =>
      if conflictGroup ∈ conflictingGroups then st
      else
        -- the table is not updated here
        ({ groups with conflictGroups :=
            groups.conflictGroups.modify conflictGroup (· ++ [requirementIndex]) },
          conflictingGroups ++ [conflictGroup])

end ConflictGroups

section Model

variable {ReqT Time : Type} [LinearOrder Time] [ResourceRequirement ReqT Time]
variable (requirements : List ReqT)

/-- An earlier requirement that ends after this one begins. -/
def stillActive (requirementIndex it : ℕ) : Bool :=
  match requirements[it]?, requirements[requirementIndex]? with
  | some active, some requirement => ¬ endTime active ≤ beginTime requirement
  | _, _ => false

variable (conflicting : ReqT → ReqT → Bool)

def conflictingAt (requirementIndex activeRequirementIndex : ℕ) : Bool :=
  match requirements[activeRequirementIndex]?, requirements[requirementIndex]? with
  | some activeRequirement, some requirement => conflicting activeRequirement requirement
  | _, _ => false

/-- One requirement of the sweep; the second component is `activeRequirements`. -/
def processRequirement (st : ConflictGroups × List ℕ) (requirementIndex : ℕ) : ConflictGroups × List ℕ :=
  let activeRequirements := st.2.filter (stillActive requirements requirementIndex)
  let groups := activeRequirements.foldl
    (fun st activeRequirementIndex =>
      if conflictingAt requirements conflicting requirementIndex activeRequirementIndex then
        ConflictGroups.join requirementIndex st activeRequirementIndex
      else st) (st.1, [])
  (groups.1, activeRequirements ++ [requirementIndex])

/-- The sweep over requirements sorted by begin time; groups are lists of indices. -/
def conflictGroupIndices : List (List ℕ) :=
  ((List.range requirements.length).foldl (processRequirement requirements conflicting)
    (.empty, [])).1.conflictGroups

/-- `requirements.sortBy { it.beginTime }`, a stable sort. -/
def sortByBeginTime : List ReqT :=
  requirements.insertionSort fun a b => beginTime a ≤ beginTime b

/-- Return a list of requirement conflict groups, as references into the requirements, which are sorted
    in place. -/
def detectConflicts : List ReqT × List (List ℕ) :=
  let requirements := sortByBeginTime requirements
  (requirements, conflictGroupIndices requirements conflicting)

/-- The sweep compares `requirements[k]` with `requirements[l]` and finds a conflict. -/
def FoundConflict (k l : ℕ) : Prop :=
  k < l ∧ stillActive requirements l k ∧ conflictingAt requirements conflicting l k

end Model

/-! ### What the sweep builds, whatever the edges -/

section Sweep

/-- The sweep has met every edge into a vertex before `i`, and those from `met` into `i`. -/
structure Swept (edge : ℕ → ℕ → Prop) (i : ℕ) (met : List ℕ) (conflictingGroups : List ℕ)
    (st : ConflictGroups) : Prop where
  /-- A group is the edge it was created for, then later vertices, each joined by one of its two ends. -/
  shape : ∀ (x : ℕ) g, st.conflictGroups[x]? = some g → ∃ a b r, g = a :: b :: r ∧ edge a b ∧
    (∀ v ∈ r, edge a v ∨ edge b v) ∧ g.Pairwise (· < ·) ∧ ∀ v ∈ g, v ≤ i
  /-- The table knows exactly these two ends. -/
  table : ∀ k x, st.conflictGroupMap k = some x →
    ∃ a b r, st.conflictGroups[x]? = some (a :: b :: r) ∧ (k = a ∨ k = b)
  known : ∀ (x : ℕ) a b r, st.conflictGroups[x]? = some (a :: b :: r) →
    st.conflictGroupMap a ≠ none ∧ st.conflictGroupMap b ≠ none
  /-- Both ends of an edge share a group that was created for the earlier one. -/
  joined : ∀ k l, edge k l → (l < i ∨ l = i ∧ k ∈ met) →
    ∃ (x : ℕ) (a b : ℕ) (r : List ℕ), st.conflictGroups[x]? = some (a :: b :: r) ∧
      (k = a ∨ k = b) ∧ l ∈ a :: b :: r
  /-- Groups are listed in the order of the vertices they were created at. -/
  order : ∀ (x y : ℕ) a b r a' b' r', x < y → st.conflictGroups[x]? = some (a :: b :: r) →
    st.conflictGroups[y]? = some (a' :: b' :: r') → b ≤ b' ∧ a' ≠ a ∧ a' ≠ b
  /-- The groups that already hold `i`. -/
  current : ∀ (x : ℕ) g, st.conflictGroups[x]? = some g → i ∈ g →
    x ∈ conflictingGroups ∨ ∃ u ∈ met, g = [u, i]
  added : ∀ x ∈ conflictingGroups, ∃ g, st.conflictGroups[x]? = some g ∧ i ∈ g

variable {edge : ℕ → ℕ → Prop} {i u : ℕ} {met cg : List ℕ} {st : ConflictGroups}

theorem Swept.empty : Swept edge 0 [] [] .empty where
  shape := by simp [ConflictGroups.empty]
  table := by simp [ConflictGroups.empty]
  known := by simp [ConflictGroups.empty]
  joined := by simp
  order := by simp [ConflictGroups.empty]
  current := by simp [ConflictGroups.empty]
  added := by simp

variable (h : Swept edge i met cg st)

include h in
/-- What is known of a group, by the edge it was created for. -/
theorem Swept.group {x a b : ℕ} {r : List ℕ}
    (hg : st.conflictGroups[x]? = some (a :: b :: r)) : edge a b ∧ (∀ v ∈ r, edge a v ∨ edge b v) ∧
      (a :: b :: r).Pairwise (· < ·) ∧ ∀ v ∈ a :: b :: r, v ≤ i := by
  obtain ⟨_, _, _, ⟨⟩, hgroup⟩ := h.shape x _ hg
  exact hgroup

theorem getElem?_concat_eq {α : Type} {as : List α} {a g : α} {x : ℕ} :
    (as ++ [a])[x]? = some g ↔ as[x]? = some g ∨ (x = as.length ∧ g = a) := by
  rcases lt_trichotomy x as.length with hx | rfl | hx
  · rw [getElem?_append_left hx]
    constructor
    · exact .inl
    · rintro (h | ⟨rfl, -⟩)
      · exact h
      · exact absurd hx (lt_irrefl _)
  · simp [eq_comm]
  · have hx' : as.length ≤ x := hx.le
    simp [getElem?_append_right hx', getElem?_eq_none hx', hx.ne', sub_ne_zero_of_lt hx]

/-- An edge met after one more step was met before it, or is the new one. -/
theorem met_concat {k l : ℕ} (hmet : l < i ∨ l = i ∧ k ∈ met ++ [u]) :
    (l < i ∨ l = i ∧ k ∈ met) ∨ (l = i ∧ k = u) := by
  rw [mem_append, mem_singleton] at hmet
  tauto

include h in
theorem Swept.current_concat {x : ℕ} {g : List ℕ}
    (hg : st.conflictGroups[x]? = some g) (hi : i ∈ g) : x ∈ cg ∨ ∃ w ∈ met ++ [u], g = [w, i] := by
  rcases h.current x g hg hi with hx | ⟨w, hw, rfl⟩
  · exact .inl hx
  · exact .inr ⟨w, mem_append_left _ hw, rfl⟩

include h in
theorem Swept.create (hu : edge u i) (hui : u < i) (hnone : st.conflictGroupMap u = none) :
    Swept edge i (met ++ [u]) cg (ConflictGroups.join i (st, cg) u).1 := by
  have hjoin : ConflictGroups.join i (st, cg) u =
      (⟨st.conflictGroups ++ [[u, i]], update (update st.conflictGroupMap u
        (some st.conflictGroups.length)) i (some st.conflictGroups.length)⟩, cg) := by
    simp only [ConflictGroups.join, hnone]
  have hnew : ∀ k, update (update st.conflictGroupMap u
      (some st.conflictGroups.length)) i (some st.conflictGroups.length) k =
      if k = u ∨ k = i then some st.conflictGroups.length else st.conflictGroupMap k := by
    intro k
    by_cases hki : k = i
    · simp [hki]
    · by_cases hku : k = u <;> simp [update_apply, hki]
  rw [hjoin]
  constructor
  case shape =>
    intro x g hg
    rcases getElem?_concat_eq.mp hg with hg | ⟨-, rfl⟩
    · exact h.shape x g hg
    · exact ⟨u, i, [], rfl, hu, by simp, by simpa using hui, by simpa using hui.le⟩
  case table =>
    intro k x hk
    simp only [hnew] at hk
    split at hk
    · next hk' =>
      cases hk
      exact ⟨u, i, [], getElem?_concat_eq.mpr (.inr ⟨rfl, rfl⟩), hk'⟩
    · obtain ⟨a, b, r, hg, hkab⟩ := h.table k x hk
      exact ⟨a, b, r, getElem?_concat_eq.mpr (.inl hg), hkab⟩
  case known =>
    intro x a b r hg
    simp only [hnew]
    rcases getElem?_concat_eq.mp hg with hg | ⟨-, hg⟩
    · obtain ⟨ha, hb⟩ := h.known x a b r hg
      exact ⟨by split <;> simp [ha], by split <;> simp [hb]⟩
    · cases hg
      simp
  case joined =>
    intro k l hkl hmet
    rcases met_concat hmet with hold | ⟨rfl, rfl⟩
    · obtain ⟨x, a, b, r, hg, hk, hl⟩ := h.joined k l hkl hold
      exact ⟨x, a, b, r, getElem?_concat_eq.mpr (.inl hg), hk, hl⟩
    · exact ⟨_, k, l, [], getElem?_concat_eq.mpr (.inr ⟨rfl, rfl⟩), .inl rfl, by simp⟩
  case order =>
    intro x y a b r a' b' r' hxy hx hy
    rcases getElem?_concat_eq.mp hx with hold | ⟨rfl, -⟩
    · rcases getElem?_concat_eq.mp hy with hold' | ⟨-, hnew'⟩
      · exact h.order x y a b r a' b' r' hxy hold hold'
      · -- the new group's first end was not in the table
        obtain ⟨ha, hb⟩ := h.known x a b r hold
        cases hnew'
        refine ⟨(h.group hold).2.2.2 b (by simp), ?_, ?_⟩
        · rintro rfl; exact ha hnone
        · rintro rfl; exact hb hnone
    · rcases getElem?_concat_eq.mp hy with hold' | ⟨rfl, -⟩
      · have hlt := (List.getElem?_eq_some_iff.mp hold').1
        omega
      · omega
  case current =>
    intro x g hg hi
    rcases getElem?_concat_eq.mp hg with hg | ⟨-, rfl⟩
    · exact h.current_concat hg hi
    · exact .inr ⟨u, by simp, rfl⟩
  case added =>
    intro x hx
    obtain ⟨g, hg, hi⟩ := h.added x hx
    exact ⟨g, getElem?_concat_eq.mpr (.inl hg), hi⟩

/-- Adding `i` at the end of group `y` keeps the two ends it was created for. -/
theorem getElem?_modify_concat {groups : List (List ℕ)} {y : ℕ} {a b : ℕ} {r : List ℕ}
    (hy : groups[y]? = some (a :: b :: r)) {x : ℕ} {g : List ℕ} :
    (groups.modify y (· ++ [i]))[x]? = some g ↔
      (x = y ∧ g = a :: b :: (r ++ [i])) ∨ (x ≠ y ∧ groups[x]? = some g) := by
  by_cases hxy : x = y
  · subst hxy
    simp [hy, eq_comm]
  · simp [hxy, Ne.symm hxy]

include h in
/-- A vertex is not in a group yet when the table leads there and no edge has added it: it would have
    come through the table entry of `u` itself. -/
theorem Swept.notMem_group (hui : u < i) (hmet : u ∉ met) {y a b : ℕ}
    {r : List ℕ} (hgroup : st.conflictGroups[y]? = some (a :: b :: r)) (hend : u = a ∨ u = b)
    (hy : y ∉ cg) : i ∉ a :: b :: r := by
  intro hi
  rcases h.current y _ hgroup hi with hcg | ⟨w, hw, hg⟩
  · exact hy hcg
  · cases hg
    rcases hend with rfl | rfl
    · exact hmet hw
    · exact lt_irrefl _ hui

theorem pairwise_lt_concat {g : List ℕ} (hsorted : g.Pairwise (· < ·)) (hlt : ∀ v ∈ g, v < i) :
    (g ++ [i]).Pairwise (· < ·) :=
  pairwise_append.mpr ⟨hsorted, pairwise_singleton _ _, fun v hv _ hw => mem_singleton.mp hw ▸ hlt v hv⟩

include h in
theorem Swept.extend (hu : edge u i) (hui : u < i) (hmet : u ∉ met)
    {y : ℕ} (hsome : st.conflictGroupMap u = some y) (hy : y ∉ cg) :
    Swept edge i (met ++ [u]) (cg ++ [y])
      { st with conflictGroups := st.conflictGroups.modify y (· ++ [i]) } := by
  obtain ⟨a, b, r, hgroup, hend⟩ := h.table u y hsome
  obtain ⟨hab, hr, hsorted, hle⟩ := h.group hgroup
  have hfresh := h.notMem_group hui hmet hgroup hend hy
  have hlt : ∀ v ∈ a :: b :: r, v < i := fun v hv =>
    lt_of_le_of_ne (hle v hv) fun hvi => hfresh (hvi ▸ hv)
  have hedge : edge a i ∨ edge b i := by
    rcases hend with rfl | rfl <;> simp [hu]
  have hconcat : ∀ {p : ℕ → Prop} {l : List ℕ}, (∀ v ∈ l, p v) → p i → ∀ v ∈ l ++ [i], p v :=
    fun hl hi => forall_mem_append.mpr ⟨hl, forall_mem_singleton.mpr hi⟩
  have hmod := fun {x g} => @getElem?_modify_concat i st.conflictGroups y a b r hgroup x g
  constructor
  case shape =>
    intro x g hg
    rcases hmod.mp hg with ⟨-, rfl⟩ | ⟨-, hg⟩
    · exact ⟨a, b, r ++ [i], rfl, hab, hconcat hr hedge, pairwise_lt_concat hsorted hlt, hconcat hle le_rfl⟩
    · exact h.shape x g hg
  case table =>
    intro k x hk
    obtain ⟨c, d, s, hg, hkcd⟩ := h.table k x hk
    by_cases hxy : x = y
    · subst hxy
      cases hgroup.symm.trans hg
      exact ⟨a, b, r ++ [i], hmod.mpr (.inl ⟨rfl, rfl⟩), hkcd⟩
    · exact ⟨c, d, s, hmod.mpr (.inr ⟨hxy, hg⟩), hkcd⟩
  case known =>
    intro x c d s hg
    rcases hmod.mp hg with ⟨-, hg⟩ | ⟨-, hg⟩
    · cases hg
      exact h.known y _ _ _ hgroup
    · exact h.known x c d s hg
  case joined =>
    intro k l hkl hkmet
    have hin : ∀ v, v ∈ a :: b :: r → v ∈ a :: b :: (r ++ [i]) := fun v hv =>
      mem_append_left [i] hv
    rcases met_concat hkmet with hold | ⟨rfl, rfl⟩
    · obtain ⟨x, c, d, s, hg, hk, hl⟩ := h.joined k l hkl hold
      by_cases hxy : x = y
      · subst hxy
        cases hgroup.symm.trans hg
        exact ⟨x, a, b, r ++ [i], hmod.mpr (.inl ⟨rfl, rfl⟩), hk, hin l hl⟩
      · exact ⟨x, c, d, s, hmod.mpr (.inr ⟨hxy, hg⟩), hk, hl⟩
    · exact ⟨y, a, b, r ++ [l], hmod.mpr (.inl ⟨rfl, rfl⟩), hend, by simp⟩
  case order =>
    intro x z c d s c' d' s' hxz hx hz
    have hends : ∀ {x c d : ℕ} {s : List ℕ}, (st.conflictGroups.modify y (· ++ [i]))[x]? =
      some (c :: d :: s) →
        ∃ s', st.conflictGroups[x]? = some (c :: d :: s') := by
      intro x c d s hg
      rcases hmod.mp hg with ⟨hxy, hnew⟩ | ⟨-, hold⟩
      · cases hnew
        exact ⟨r, hxy ▸ hgroup⟩
      · exact ⟨s, hold⟩
    obtain ⟨s₁, hx'⟩ := hends hx
    obtain ⟨s₂, hz'⟩ := hends hz
    exact h.order x z c d s₁ c' d' s₂ hxz hx' hz'
  case current =>
    intro x g hg hi
    rcases hmod.mp hg with ⟨rfl, -⟩ | ⟨-, hg⟩
    · exact .inl (by simp)
    · exact (h.current_concat hg hi).imp_left (mem_append_left _)
  case added =>
    intro x hx
    by_cases hxy : x = y
    · exact ⟨a :: b :: (r ++ [i]), hmod.mpr (.inl ⟨hxy, rfl⟩), by simp⟩
    · have hxcg : x ∈ cg := (mem_append.mp hx).resolve_right (by simpa using hxy)
      obtain ⟨g, hg, hi⟩ := h.added x hxcg
      exact ⟨g, hmod.mpr (.inr ⟨hxy, hg⟩), hi⟩

include h in
/-- An edge into a group that already has `i` changes nothing but what has been met. -/
theorem Swept.skip {y : ℕ} (hsome : st.conflictGroupMap u = some y)
    (hy : y ∈ cg) : Swept edge i (met ++ [u]) cg st where
  shape := h.shape
  table := h.table
  known := h.known
  order := h.order
  added := h.added
  joined := by
    intro k l hkl hkmet
    rcases met_concat hkmet with hold | ⟨rfl, rfl⟩
    · exact h.joined k l hkl hold
    · obtain ⟨a, b, r, hgroup, hend⟩ := h.table k y hsome
      obtain ⟨g, hg, hl⟩ := h.added y hy
      cases hgroup.symm.trans hg
      exact ⟨y, a, b, r, hgroup, hend, hl⟩
  current := fun _ _ hg hi => h.current_concat hg hi

include h in
theorem Swept.join (hu : edge u i) (hui : u < i) (hmet : u ∉ met) :
    Swept edge i (met ++ [u]) (ConflictGroups.join i (st, cg) u).2 (ConflictGroups.join i (st, cg) u).1 := by
  cases hmap : st.conflictGroupMap u with
  | none =>
    have hcreate := h.create hu hui hmap
    simpa only [ConflictGroups.join, hmap] using hcreate
  | some y =>
    by_cases hy : y ∈ cg
    · simpa only [ConflictGroups.join, hmap, if_pos hy] using h.skip hmap hy
    · simpa only [ConflictGroups.join, hmap, if_neg hy] using h.extend hu hui hmet hmap hy

theorem Swept.foldl_join : ∀ {us met : List ℕ} {cg : List ℕ} {st : ConflictGroups},
    Swept edge i met cg st → (∀ u ∈ us, edge u i ∧ u < i) → (met ++ us).Nodup →
    ∃ cg', Swept edge i (met ++ us) cg' (us.foldl (ConflictGroups.join i) (st, cg)).1
  | [], met, cg, st, h, _, _ => ⟨cg, by simpa using h⟩
  | u :: us, met, cg, st, h, hus, hnodup => by
    obtain ⟨⟨hu, hui⟩, hus⟩ := forall_mem_cons.mp hus
    have hmet : u ∉ met := fun hmem => (nodup_append.mp hnodup).2.2 u hmem u mem_cons_self rfl
    obtain ⟨cg', hswept⟩ := (h.join hu hui hmet).foldl_join hus (by simpa using hnodup)
    exact ⟨cg', by simpa using hswept⟩

include h in
/-- The next vertex: no group holds it yet. -/
theorem Swept.next (hmet : ∀ k, edge k i → k ∈ met) : Swept edge (i + 1) [] [] st where
  shape := by
    intro x g hg
    obtain ⟨a, b, r, rfl, hab, hr, hsorted, hle⟩ := h.shape x g hg
    exact ⟨a, b, r, rfl, hab, hr, hsorted, fun v hv => (hle v hv).trans (le_succ i)⟩
  table := h.table
  known := h.known
  order := h.order
  added := by simp
  joined := by
    intro k l hkl hl
    rcases Nat.lt_succ_iff_lt_or_eq.mp (hl.resolve_right (by simp)) with hl | rfl
    · exact h.joined k l hkl (.inl hl)
    · exact h.joined k l hkl (.inr ⟨rfl, hmet k hkl⟩)
  current := by
    intro x g hg hi
    obtain ⟨_, _, _, _, _, _, _, hle⟩ := h.shape x g hg
    have := hle _ hi
    omega

end Sweep

section Run

variable {ReqT Time : Type} [LinearOrder Time] [ResourceRequirement ReqT Time]
  {reqs : List ReqT} {conflicting : ReqT → ReqT → Bool}

variable (hs : reqs.Pairwise fun a b => beginTime a ≤ beginTime b)

include hs in
/-- Begin times only grow, so a requirement that is inactive stays so. -/
theorem stillActive_of_le {i i' j : ℕ} (hi : i ≤ i')
    (hactive : stillActive reqs i' j) : stillActive reqs i j := by
  cases hj : reqs[j]? with
  | none => simp [stillActive, hj] at hactive
  | some active =>
    cases hi' : reqs[i']? with
    | none => simp [stillActive, hi'] at hactive
    | some requirement' =>
      obtain ⟨hlt', rfl⟩ := List.getElem?_eq_some_iff.mp hi'
      have hlt : i < reqs.length := hi.trans_lt hlt'
      have hle : beginTime reqs[i] ≤ beginTime reqs[i'] := by
        rcases hi.lt_or_eq with hlt'' | rfl
        · exact List.pairwise_iff_getElem.mp hs i i' hlt hlt' hlt''
        · exact le_rfl
      simp only [stillActive, hj, hi', getElem?_eq_getElem hlt, not_le, decide_eq_true_eq]
        at hactive ⊢
      exact hle.trans_lt hactive

/-- `activeRequirements` before requirement `i`: earlier ones, and all that can still be active. -/
structure ActiveInv (reqs : List ReqT) (i : ℕ) (active : List ℕ) : Prop where
  nodup : active.Nodup
  earlier : ∀ j ∈ active, j < i
  complete : ∀ j, j < i → ∀ i', i ≤ i' → stillActive reqs i' j → j ∈ active

include hs in
theorem processRequirement_spec {i : ℕ}
    {st : ConflictGroups × List ℕ} (hswept : Swept (FoundConflict reqs conflicting) i [] [] st.1)
    (hactive : ActiveInv reqs i st.2) : Swept (FoundConflict reqs conflicting) (i + 1) [] []
        (processRequirement reqs conflicting st i).1 ∧
      ActiveInv reqs (i + 1) (processRequirement reqs conflicting st i).2 := by
  constructor
  · let us := (st.2.filter (stillActive reqs i)).filter
      (conflictingAt reqs conflicting i)
    have hus : ∀ u ∈ us, FoundConflict reqs conflicting u i ∧ u < i := by
      intro u hu
      obtain ⟨hu, hconf⟩ := mem_filter.mp hu
      obtain ⟨hu, hact⟩ := mem_filter.mp hu
      exact ⟨⟨hactive.earlier u hu, hact, hconf⟩, hactive.earlier u hu⟩
    have hnodup : ([] ++ us).Nodup := (hactive.nodup.filter _).filter _
    obtain ⟨cg, hall⟩ := hswept.foldl_join hus hnodup
    have hnext := hall.next fun k hk => mem_filter.mpr
      ⟨mem_filter.mpr ⟨hactive.complete k hk.1 i le_rfl hk.2.1, hk.2.1⟩, hk.2.2⟩
    rw [foldl_filter] at hnext
    exact hnext
  · refine ⟨?_, ?_, ?_⟩
    · refine nodup_append.mpr ⟨hactive.nodup.filter _, nodup_singleton i, ?_⟩
      intro j hj k hk
      have hlt := hactive.earlier j (mem_filter.mp hj).1
      rw [mem_singleton.mp hk]
      exact hlt.ne
    · intro j hj
      rcases mem_append.mp hj with hj | hj
      · exact (hactive.earlier j (mem_filter.mp hj).1).trans (lt_succ_self i)
      · exact (mem_singleton.mp hj).symm ▸ lt_succ_self i
    · intro j hj i' hi' hact
      rcases Nat.lt_succ_iff_lt_or_eq.mp hj with hj | rfl
      · have hle : i ≤ i' := (le_succ i).trans hi'
        exact mem_append_left _ (mem_filter.mpr
          ⟨hactive.complete j hj i' hle hact, stillActive_of_le hs hle hact⟩)
      · exact mem_append_right _ (mem_singleton.mpr rfl)

include hs in
theorem sweep_spec (n : ℕ) : Swept (FoundConflict reqs conflicting) n [] []
        ((range n).foldl (processRequirement reqs conflicting) (.empty, [])).1 ∧ ActiveInv reqs n
        ((range n).foldl (processRequirement reqs conflicting) (.empty, [])).2 := by
  induction n with
  | zero => exact ⟨Swept.empty, ⟨nodup_nil, by simp, by simp⟩⟩
  | succ n ih =>
    rw [range_succ, foldl_append]
    exact processRequirement_spec hs ih.1 ih.2

end Run

/-! ### Against the connected components -/

/-- The groups are the connected components with at least two members, each listed once. -/
structure AreComponents (graph : SimpleGraph ℕ) (groups : List (List ℕ)) : Prop where
  nodup : ∀ g ∈ groups, g.Nodup
  component : ∀ g ∈ groups, ∃ c : graph.ConnectedComponent, c.supp.Nontrivial ∧
    ∀ v, v ∈ g ↔ v ∈ c.supp
  all : ∀ c : graph.ConnectedComponent, c.supp.Nontrivial →
    ∃ g ∈ groups, ∀ v, v ∈ g ↔ v ∈ c.supp
  disjoint : groups.Pairwise List.Disjoint

/-- What the grouping needs: the sweep finds no conflict between unconnected vertices, and each
    component starts with two vertices in conflict, one of which is the earlier end of every conflict
    found in it. -/
structure Seeded (graph : SimpleGraph ℕ) (edge : ℕ → ℕ → Prop) : Prop where
  connected : ∀ k l, edge k l → graph.Reachable k l
  seeds : ∀ k l, edge k l → ∃ a b, edge a b ∧ graph.Reachable k a ∧
    (∀ v, graph.Reachable k v → v = a ∨ v = b ∨ b < v) ∧
    ∀ v w, graph.Reachable k v → edge v w → v = a ∨ v = b

section Components

variable {graph : SimpleGraph ℕ} {edge : ℕ → ℕ → Prop} {n : ℕ} {st : ConflictGroups}

theorem Swept.group_of_edge (h : Swept edge n [] [] st) {k l : ℕ} (hl : l < n) (hkl : edge k l) :
    ∃ (x a b : ℕ) (r : List ℕ), st.conflictGroups[x]? = some (a :: b :: r) ∧ (k = a ∨ k = b) ∧
      k ∈ a :: b :: r ∧ l ∈ a :: b :: r := by
  obtain ⟨x, a, b, r, hg, hk, hmem⟩ := h.joined k l hkl (.inl hl)
  exact ⟨x, a, b, r, hg, hk, by rcases hk with rfl | rfl <;> simp, hmem⟩

variable (h : Swept edge n [] [] st) (hn : ∀ k l, edge k l → l < n)

include h

include hn in
/-- Groups that are components force the shape of every component. -/
theorem Swept.seeded (hc : AreComponents graph st.conflictGroups) : Seeded graph edge := by
  have hgroup : ∀ {x : ℕ} {g : List ℕ} {v w : ℕ}, st.conflictGroups[x]? = some g → v ∈ g →
      (w ∈ g ↔ graph.Reachable v w) := by
    intro x g v w hg hv
    obtain ⟨c, -, hmem⟩ := hc.component g (mem_of_getElem? hg)
    rw [hmem, SimpleGraph.ConnectedComponent.mem_supp_iff,
      ← (SimpleGraph.ConnectedComponent.mem_supp_iff c v).mp ((hmem v).mp hv),
      SimpleGraph.ConnectedComponent.eq]
    exact ⟨SimpleGraph.Reachable.symm, SimpleGraph.Reachable.symm⟩
  refine ⟨fun k l hkl => ?_, fun k l hkl => ?_⟩
  · obtain ⟨x, a, b, r, hg, -, hk, hl⟩ := h.group_of_edge (hn k l hkl) hkl
    exact (hgroup hg hk).mp hl
  · obtain ⟨x, a, b, r, hg, -, hk, -⟩ := h.group_of_edge (hn k l hkl) hkl
    obtain ⟨hab, -, hsorted, -⟩ := h.group hg
    refine ⟨a, b, hab, (hgroup hg hk).mp (by simp), fun v hv => ?_, fun v w hv hvw => ?_⟩
    · rcases mem_cons.mp ((hgroup hg hk).mpr hv) with hv | hv
      · exact .inl hv
      · refine .inr ((mem_cons.mp hv).imp_right fun hv => ?_)
        exact rel_of_pairwise_cons (List.Pairwise.of_cons hsorted) hv
    · -- the group of this edge meets the component, so it is the same group
      obtain ⟨y, c, d, s, hg', hend, hv', -⟩ := h.group_of_edge (hn v w hvw) hvw
      have hvg : v ∈ a :: b :: r := (hgroup hg hk).mpr hv
      have hxy : x = y := by
        by_contra hne
        obtain ⟨hx, hgx⟩ := List.getElem?_eq_some_iff.mp hg
        obtain ⟨hy, hgy⟩ := List.getElem?_eq_some_iff.mp hg'
        have hdisj := List.pairwise_iff_getElem.mp hc.disjoint
        rcases lt_or_gt_of_ne hne with hlt | hlt
        · exact hdisj x y hx hy hlt (hgx ▸ hvg) (hgy ▸ hv')
        · exact hdisj y x hy hx hlt (hgy ▸ hv') (hgx ▸ hvg)
      subst hxy
      cases hg.symm.trans hg'
      exact hend

variable (hseed : Seeded graph edge)

include hseed

variable {r : List ℕ} {x a b : ℕ}

/-- A group stays within one component. -/
theorem Swept.reachable (hg : st.conflictGroups[x]? = some (a :: b :: r)) :
    ∀ v ∈ a :: b :: r, graph.Reachable a v := by
  obtain ⟨hab, hr, -, -⟩ := h.group hg
  have hreach := hseed.connected _ _ hab
  refine forall_mem_cons.mpr ⟨.refl _, forall_mem_cons.mpr ⟨hreach, fun v hv => ?_⟩⟩
  rcases hr v hv with hav | hbv
  · exact hseed.connected _ _ hav
  · exact hreach.trans (hseed.connected _ _ hbv)

variable (hlt : ∀ k l, edge k l → k < l)

include hn hlt

/-- The group of a component's first two vertices starts with them, and is its only group. -/
theorem Swept.seed_group {a b : ℕ} (hab : edge a b)
    (hfirst : ∀ v, graph.Reachable a v → v = a ∨ v = b ∨ b < v)
    (hends : ∀ v w, graph.Reachable a v → edge v w → v = a ∨ v = b) :
    ∃ (x : ℕ) (r : List ℕ), st.conflictGroups[x]? = some (a :: b :: r) ∧
      ∀ (y c d : ℕ) (s : List ℕ), st.conflictGroups[y]? = some (c :: d :: s) →
        graph.Reachable a c → y = x := by
  obtain ⟨x, c, d, s, hg, hc, -, hb⟩ := h.group_of_edge (hn a b hab) hab
  obtain ⟨hcd, -, hsorted, -⟩ := h.group hg
  have hcd' := hlt c d hcd
  have hab' := hlt a b hab
  have hreach := h.reachable hseed hg
  -- nothing of the component comes before `a`
  have hca : c = a := by
    rcases hc with hac | had
    · exact hac.symm
    · have hac : graph.Reachable a c := by rw [had]; exact (hreach d (by simp)).symm
      rcases hfirst c hac with hv | hv | hv <;> omega
  subst hca
  have hdb : d = b := by
    have hle : d ≤ b := by
      rcases mem_cons.mp hb with hb | hb
      · omega
      rcases mem_cons.mp hb with hb | hb
      · exact hb.ge
      · exact (rel_of_pairwise_cons (List.Pairwise.of_cons hsorted) hb).le
    rcases hfirst d (hreach d (by simp)) with hv | hv | hv <;> omega
  subst hdb
  refine ⟨x, s, hg, fun y e f t hy he => ?_⟩
  have hef := (h.group hy).1
  have hef' := hlt e f hef
  have hend := hends e f he hef
  -- an earlier group would be created at a later vertex, a later one for a vertex in the table
  rcases lt_trichotomy y x with hyx | hyx | hyx
  · obtain ⟨hle, hne, -⟩ := h.order y x e f t c d s hyx hy hg
    rcases hend with hec | hed
    · exact absurd hec.symm hne
    · omega
  · exact hyx
  · obtain ⟨-, hne, hne'⟩ := h.order x y c d s e f t hyx hg hy
    exact (hend.elim hne hne').elim

/-- A group is the only one of its component, and has the earlier end of every edge found in it. -/
theorem Swept.only_group (hg : st.conflictGroups[x]? = some (a :: b :: r)) :
    (∀ v w, graph.Reachable a v → edge v w → v = a ∨ v = b) ∧
      ∀ (y c d : ℕ) (s : List ℕ), st.conflictGroups[y]? = some (c :: d :: s) →
        graph.Reachable a c → y = x := by
  obtain ⟨a₀, b₀, hab₀, hreach₀, hfirst, hends⟩ := hseed.seeds a b (h.group hg).1
  obtain ⟨x₀, r₀, hg₀, honly⟩ := h.seed_group hn hseed hlt hab₀
    (fun w hw => hfirst w (hreach₀.trans hw)) (fun w u hw => hends w u (hreach₀.trans hw))
  obtain rfl := honly x a b r hg hreach₀.symm
  cases hg.symm.trans hg₀
  exact ⟨hends, honly⟩

variable (hadj : ∀ k l, graph.Adj k l → k < l → edge k l)

include hadj

/-- Each component's group holds all of it. -/
theorem Swept.mem_of_reachable
    (hg : st.conflictGroups[x]? = some (a :: b :: r)) {v : ℕ} (hv : graph.Reachable a v) :
    v ∈ a :: b :: r := by
  obtain ⟨hends, honly⟩ := h.only_group hn hseed hlt hg
  by_cases hab : v = a ∨ v = b
  · rcases hab with rfl | rfl <;> simp
  -- `v` has a neighbour, which must be the earlier end of their edge
  obtain rfl | ⟨w, hvw, hwa⟩ := ((graph.reachable_iff_reflTransGen v a).mp hv.symm).cases_head
  · exact mem_cons_self
  have haw : graph.Reachable a w := ((graph.reachable_iff_reflTransGen w a).mpr hwa).symm
  rcases lt_or_gt_of_ne hvw.ne with hlt' | hlt'
  · exact absurd (hends v w hv (hadj v w hvw hlt')) hab
  · have hwv := hadj w v hvw.symm hlt'
    obtain ⟨y, c, d, s, hy, -, hwy, hvy⟩ := h.group_of_edge (hn w v hwv) hwv
    obtain rfl := honly y c d s hy (haw.trans (h.reachable hseed hy w hwy).symm)
    cases hg.symm.trans hy
    exact hvy

/-- With seeded components the groups are the components. -/
theorem Swept.areComponents : AreComponents graph st.conflictGroups := by
  have hmem : ∀ {x a b : ℕ} {r : List ℕ}, st.conflictGroups[x]? = some (a :: b :: r) → ∀ v,
      v ∈ a :: b :: r ↔ v ∈ (graph.connectedComponentMk a).supp := by
    intro x a b r hg v
    rw [SimpleGraph.ConnectedComponent.mem_supp_iff, SimpleGraph.ConnectedComponent.eq]
    constructor
    · exact fun hv => (h.reachable hseed hg v hv).symm
    · exact fun hv => h.mem_of_reachable hn hseed hlt hadj hg hv.symm
  have hshape : ∀ {g}, g ∈ st.conflictGroups → ∃ (x a b : ℕ) (r : List ℕ), g = a :: b :: r ∧
      st.conflictGroups[x]? = some (a :: b :: r) ∧ (a :: b :: r).Pairwise (· < ·) := by
    intro g hg
    obtain ⟨x, hx⟩ := mem_iff_getElem?.mp hg
    obtain ⟨a, b, r, rfl, -, -, hsorted, -⟩ := h.shape x g hx
    exact ⟨x, a, b, r, rfl, hx, hsorted⟩
  constructor
  case nodup =>
    intro g hg
    obtain ⟨x, a, b, r, rfl, -, hsorted⟩ := hshape hg
    exact hsorted.imp ne_of_lt
  case component =>
    intro g hg
    obtain ⟨x, a, b, r, rfl, hx, hsorted⟩ := hshape hg
    refine ⟨_, ⟨a, (hmem hx a).mp (by simp), b, (hmem hx b).mp (by simp), ?_⟩, hmem hx⟩
    exact (rel_of_pairwise_cons hsorted mem_cons_self).ne
  case all =>
    intro c hc
    obtain ⟨u, hu, v, hv, huv⟩ := hc
    have huv' : graph.Reachable u v := by rw [← SimpleGraph.ConnectedComponent.eq, hu, hv]
    obtain huv'' | ⟨w, huw, -⟩ := ((graph.reachable_iff_reflTransGen u v).mp huv').cases_head
    · exact absurd huv'' huv
    obtain ⟨k, l, hkl, hk⟩ : ∃ k l, edge k l ∧ graph.Reachable k u := by
      rcases lt_or_gt_of_ne huw.ne with hlt' | hlt'
      · exact ⟨u, w, hadj u w huw hlt', .refl u⟩
      · exact ⟨w, u, hadj w u huw.symm hlt', huw.symm.reachable⟩
    obtain ⟨x, a, b, r, hg, -, hkg, -⟩ := h.group_of_edge (hn k l hkl) hkl
    have hc : graph.connectedComponentMk a = c := by
      rw [← hu, SimpleGraph.ConnectedComponent.eq]
      exact (h.reachable hseed hg k hkg).trans hk
    exact ⟨_, mem_of_getElem? hg, fun i => by rw [hmem hg, hc]⟩
  case disjoint =>
    refine List.pairwise_iff_getElem.mpr fun x y hx hy hxy v hvx hvy => ?_
    have hgx := getElem?_eq_getElem hx
    have hgy := getElem?_eq_getElem hy
    obtain ⟨_, a, b, r, hxeq, -⟩ := hshape (getElem_mem hx)
    obtain ⟨_, c, d, s, hyeq, -⟩ := hshape (getElem_mem hy)
    rw [hxeq] at hgx hvx
    rw [hyeq] at hgy hvy
    have hreach := (h.reachable hseed hgx v hvx).trans (h.reachable hseed hgy v hvy).symm
    exact hxy.ne' ((h.only_group hn hseed hlt hgx).2 y c d s hgy hreach)

end Components

/-! ### The connected components of the overlaps -/

section Overlaps

variable {ReqT Time : Type} [LinearOrder Time] [ResourceRequirement ReqT Time]

/-- The graph of direct conflicts: two distinct requirements that conflict, each of which begins
    strictly before the other ends. -/
def overlapGraph (reqs : List ReqT) (conflicting : ReqT → ReqT → Bool)
    (hsymm : ∀ a b, conflicting a b = conflicting b a) : SimpleGraph ℕ where
  Adj i j := i ≠ j ∧ ∃ a b, reqs[i]? = some a ∧ reqs[j]? = some b ∧
    conflicting a b ∧ beginTime a < endTime b ∧ beginTime b < endTime a
  symm := ⟨by
    rintro i j ⟨hne, a, b, ha, hb, hconf, hab, hba⟩
    exact ⟨hne.symm, b, a, hb, ha, hsymm a b ▸ hconf, hba, hab⟩⟩
  loopless := ⟨fun i h => h.1 rfl⟩

variable {reqs : List ReqT} {conflicting : ReqT → ReqT → Bool}

theorem foundConflict_of_adj {hsymm : ∀ a b, conflicting a b = conflicting b a} {k l : ℕ}
    (h : (overlapGraph reqs conflicting hsymm).Adj k l) (hkl : k < l) :
    FoundConflict reqs conflicting k l := by
  obtain ⟨-, a, b, ha, hb, hconf, -, hba⟩ := h
  refine ⟨hkl, ?_, ?_⟩
  · simpa [stillActive, ha, hb] using hba
  · simpa [conflictingAt, ha, hb] using hconf

theorem FoundConflict.lt_length {k l : ℕ} (h : FoundConflict reqs conflicting k l) : l < reqs.length := by
  by_contra hl
  have hnone : reqs[l]? = none := getElem?_eq_none (not_lt.mp hl)
  have hactive := h.2.1
  cases hk : reqs[k]? <;> simp [stillActive, hnone] at hactive

theorem pairwise_sortByBeginTime (reqs : List ReqT) :
    (sortByBeginTime reqs).Pairwise fun a b => beginTime a ≤ beginTime b := by
  exact pairwise_insertionSort _ _

/-- `detectConflicts` returns the connected components exactly when they are all seeded. -/
theorem detectConflicts_areComponents_iff (reqs : List ReqT)
    (conflicting : ReqT → ReqT → Bool) (hsymm : ∀ a b, conflicting a b = conflicting b a) :
    AreComponents (overlapGraph (detectConflicts reqs conflicting).1 conflicting hsymm)
        (detectConflicts reqs conflicting).2 ↔ Seeded (overlapGraph (sortByBeginTime reqs) conflicting hsymm)
        (FoundConflict (sortByBeginTime reqs) conflicting) := by
  obtain ⟨hswept, -⟩ := @sweep_spec ReqT Time _ _ _ conflicting
    (pairwise_sortByBeginTime reqs) (sortByBeginTime reqs).length
  have hn : ∀ k l, FoundConflict (sortByBeginTime reqs) conflicting k l →
      l < (sortByBeginTime reqs).length := fun k l h => h.lt_length
  constructor
  · exact hswept.seeded hn
  · exact fun hseed => hswept.areComponents hn hseed (fun k l h => h.1) fun k l h hlt =>
      foundConflict_of_adj h hlt

end Overlaps

/-! ### Spacing requirements of one zone -/

inductive RequirementType
  | TRAIN
  | WORK_SCHEDULE
  deriving DecidableEq

/-- Either a train db id or a work schedule db id. -/
structure RequirementId where
  id : String
  type : RequirementType
  deriving DecidableEq

structure SpacingZoneRequirement (Time : Type) where
  id : RequirementId
  beginTime : Time
  endTime : Time

instance {Time : Type} : ResourceRequirement (SpacingZoneRequirement Time) Time where
  beginTime := SpacingZoneRequirement.beginTime
  endTime := SpacingZoneRequirement.endTime

/-- Four trains in one zone, each overlapping the next one only. -/
def chainOfTrains : List (SpacingZoneRequirement ℕ) :=
  [⟨⟨"A", .TRAIN⟩, 0, 4⟩, ⟨⟨"B", .TRAIN⟩, 2, 8⟩, ⟨⟨"C", .TRAIN⟩, 6, 12⟩, ⟨⟨"D", .TRAIN⟩, 10, 14⟩]

/-- The third train is put in two groups: it was added to the first one without entering the table. -/
theorem detectConflicts_chain : (detectConflicts chainOfTrains fun _ _ => true).2 = [[0, 1, 2], [2, 3]] ∧
      ¬ AreComponents (overlapGraph (detectConflicts chainOfTrains fun _ _ => true).1
        (fun _ _ => true) fun _ _ => rfl) (detectConflicts chainOfTrains fun _ _ => true).2 := by
  have hgroups : (detectConflicts chainOfTrains fun _ _ => true).2 = [[0, 1, 2], [2, 3]] := by
    decide
  refine ⟨hgroups, fun h => ?_⟩
  have hdisj := h.disjoint
  exact (pairwise_cons.mp hdisj).1 [2, 3] (by simp) (by simp : 2 ∈ [0, 1, 2]) (by simp)

/-- Two overlapping trains are one component, and one group. -/
theorem detectConflicts_pair_areComponents :
    AreComponents (overlapGraph (detectConflicts (chainOfTrains.take 2) fun _ _ => true).1
      (fun _ _ => true) fun _ _ => rfl) (detectConflicts (chainOfTrains.take 2) fun _ _ => true).2 := by
  refine (detectConflicts_areComponents_iff (chainOfTrains.take 2) (fun _ _ => true)
    fun _ _ => rfl).mpr ⟨fun k l hkl => ?_, fun k l hkl => ?_⟩
  · have hl : l < 2 := hkl.lt_length
    obtain ⟨rfl, rfl⟩ : k = 0 ∧ l = 1 := by have := hkl.1; omega
    refine SimpleGraph.Adj.reachable ⟨by decide, _, _, rfl, rfl, rfl, ?_, ?_⟩ <;> decide
  · have hl : l < 2 := hkl.lt_length
    obtain ⟨rfl, rfl⟩ : k = 0 ∧ l = 1 := by have := hkl.1; omega
    refine ⟨0, 1, hkl, SimpleGraph.Reachable.refl 0, fun v _ => by omega, fun v w _ hvw => ?_⟩
    have hw : w < 2 := hvw.lt_length
    have := hvw.1
    omega

end Osrd.Conflicts
