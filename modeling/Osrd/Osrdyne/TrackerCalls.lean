import Osrd.Osrdyne.Schedule

/-! A tracker under any sequence of calls, with times that may go back.

    The tables stay consistent, the generation counts the calls that change the target state, and nothing is
    due after `evolve_until`. A stop at an earlier time on the way leaves the same tables. -/

namespace Osrd.Osrdyne.TargetTracker

open Containers Option

inductive Call (Key : Type)
  | requireQueue (time extraLifetime : ℕ) (key : Key)
  | evolveUntil (now : ℕ)

variable {Key : Type} {s s' : TargetTracker Key} {now : ℕ} {choice : Peek ℕ ℕ}

/-! ### What the tables are, from the view and the handles -/

theorem Consistent.get_iff (h : Consistent s) {k : Key} {i start : ℕ} :
    s.queues.get i = some ⟨k, start⟩ ↔
      s.queuesByKey k = some i ∧ ∃ status, s.view k = some (status, start) := by
  constructor
  · intro hget
    have hk := (h.byKey k i).mpr ⟨start, hget⟩
    obtain ⟨start', status, hget', -, hview⟩ := h.tracked hk
    cases hget.symm.trans hget'
    exact ⟨hk, status, hview⟩
  · rintro ⟨hk, status, hview⟩
    obtain ⟨start', status', hget, -, hview'⟩ := h.tracked hk
    cases hview.symm.trans hview'
    exact hget

theorem Consistent.planned_iff (h : Consistent s) {i t : ℕ} :
    s.plannedTransitions.lookup i = some t ↔ ∃ k status start, s.queuesByKey k = some i ∧
      s.view k = some (status, start) ∧ t = s.eventTime start status.next := by
  rw [h.planned]
  constructor
  · rintro ⟨k, start, status, hget, hstatus, rfl⟩
    exact ⟨k, status, start, (h.byKey k i).mpr ⟨start, hget⟩, h.view_eq_some hget hstatus, rfl⟩
  · rintro ⟨k, status, start, hk, hview, rfl⟩
    have hstatus : s.state k = some status := by rw [h.state_eq, hview, map_some]
    exact ⟨k, start, status, h.get_iff.mpr ⟨hk, status, hview⟩, hstatus, rfl⟩

/-- Trackers that show the same target state and hold the same queues and planned transitions. -/
structure SameTables (s s' : TargetTracker Key) : Prop where
  state : s.state = s'.state
  queues : s.queues.get = s'.queues.get
  queuesByKey : s.queuesByKey = s'.queuesByKey
  planned : s.plannedTransitions = s'.plannedTransitions

theorem Consistent.sameTables (h : Consistent s) (h' : Consistent s') (hdelays : SameDelays s s')
    (hview : s.view = s'.view) (hkeys : s.queuesByKey = s'.queuesByKey) : SameTables s s' where
  state := funext fun k => by rw [h.state_eq, h'.state_eq, hview]
  queues := by
    refine funext fun i => ext fun queue => ?_
    rw [h.get_iff, h'.get_iff, hview, hkeys]
  queuesByKey := hkeys
  planned := by
    refine Finmap.ext_lookup fun i => ext fun t => ?_
    rw [h.planned_iff, h'.planned_iff]
    simp only [hview, hkeys, hdelays.eventTime]

/-! ### Generations -/

theorem queueUpdateTransition_generation {i : ℕ} (hs : s.queueUpdateTransition i = some s') :
    s'.generation = s.generation := by
  simp only [queueUpdateTransition, bind_eq_bind, bind_eq_some_iff] at hs
  obtain ⟨_, -, _, -, hs⟩ := hs
  cases hs
  rfl

variable [DecidableEq Key]

/-- A requirement counts unless the key is active. -/
theorem requireQueue_generation (h : Consistent s) {time extraLifetime : ℕ} {k : Key}
    (hs : s.requireQueue time extraLifetime k = some s') :
    s'.generation = s.generation ↔ s.state k = some .Active := by
  rw [requireQueue] at hs
  split at hs
  · next i hk =>
    obtain ⟨start, status, hget, hstatus, -⟩ := h.tracked hk
    obtain ⟨s₁, hs₁, hs⟩ := bind_eq_some_iff.mp hs
    rw [queueUpdateTransition_generation hs, hstatus]
    simp only [renewQueue, hget, bind_eq_bind, bind_some, hstatus] at hs₁
    split at hs₁
    · next hne =>
      cases hs₁
      simpa using hne
    · next hactive =>
      cases hs₁
      simpa using hactive
  · next hk =>
    rw [queueUpdateTransition_generation hs, h.state_eq, h.view_eq_none.mpr hk]
    simp [createQueue]

theorem queueApplyTransition_generation {i : ℕ} (hs : s.queueApplyTransition now i = some s') :
    s' = s ∨ s'.generation = s.generation + 1 := by
  simp only [queueApplyTransition, bind_eq_bind, bind_eq_some_iff] at hs
  obtain ⟨queue, -, current, -, hs⟩ := hs
  split at hs
  · exact .inl (some.inj hs).symm
  · right
    split at hs
    · exact queueUpdateTransition_generation hs
    · cases hs
      rfl

theorem generation_le_evolveLoop : ∀ (fuel : ℕ) {s : TargetTracker Key},
    evolveLoop choice now fuel s = some s' → s.generation ≤ s'.generation
  | 0, _, hs => nomatch hs
  | fuel + 1, s, hs => by
    rw [evolveLoop] at hs
    split at hs
    · cases hs
      exact le_rfl
    · split at hs
      · cases hs
        exact le_rfl
      · obtain ⟨s₁, hs₁, hs⟩ := bind_eq_some_iff.mp hs
        have hle := generation_le_evolveLoop fuel hs
        rcases queueApplyTransition_generation hs₁ with rfl | hgeneration
        · exact hle
        · omega

/-- The first due transition already changes the target state, and no later one changes it back. -/
theorem evolveUntil_generation (h : Consistent s) (hs : s.evolveUntil choice now = some s') :
    s'.generation = s.generation ↔ s'.state = s.state := by
  obtain ⟨_, hs', h', -, hview', -⟩ := evolveUntil_spec choice h now
  cases hs.symm.trans hs'
  rw [evolveUntil, evolveLoop] at hs
  split at hs
  · cases hs
    simp
  · next i t hpeek =>
    split at hs
    · cases hs
      simp
    · next hdue =>
      obtain ⟨s₁, k, e, hs₁, hview, hdue', hw⟩ := queueApplyTransition_spec h (choice.mem hpeek) hdue
      rw [hs₁, bind_some] at hs
      have hle := generation_le_evolveLoop _ hs
      have hgeneration : s₁.generation = s.generation + 1 := by
        rcases queueApplyTransition_generation hs₁ with rfl | hgeneration
        · exact absurd (hw.count_lt (choice.mem hpeek) (not_lt.mp hdue)) (lt_irrefl _)
        · exact hgeneration
      have hstate : s'.state k ≠ s.state k := by
        rw [h'.state_eq, hview', h.state_eq, hview, bind_some, evolved, if_neg hdue', map_map]
        simpa using expectedStatus_ne hdue'
      constructor
      · intro heq
        omega
      · intro heq
        exact absurd (congrFun heq k) hstate

/-! ### Any calls -/

def call (choice : Peek ℕ ℕ) (s : TargetTracker Key) : Call Key → Option (TargetTracker Key)
  | .requireQueue time extraLifetime key => s.requireQueue time extraLifetime key
  | .evolveUntil now => s.evolveUntil choice now

/-- What one call does to a consistent tracker. -/
theorem call_spec (choice : Peek ℕ ℕ) (h : Consistent s) (next : Call Key) :
    ∃ s', s.call choice next = some s' ∧ Consistent s' ∧
      (s'.generation = s.generation ↔ s'.state = s.state) ∧
      ∀ now, next = .evolveUntil now → ∀ t, s'.deadline choice = some t → now < t := by
  cases next with
  | requireQueue time extraLifetime key =>
    obtain ⟨s', i, hs', hw⟩ := requireQueue_spec h time extraLifetime key
    refine ⟨s', hs', hw.consistent h, ?_, by simp⟩
    rw [requireQueue_generation h hs', hw.state, Function.update_eq_self_iff, map_some, eq_comm]
  | evolveUntil now =>
    obtain ⟨s', hs', h', hdelays, hview, -⟩ := evolveUntil_spec choice h now
    refine ⟨s', hs', h', evolveUntil_generation h hs', ?_⟩
    rintro _ ⟨⟩ t ht
    obtain ⟨⟨i, _⟩, hpeek, rfl⟩ := map_eq_some_iff.mp ht
    obtain ⟨k, status, start, -, hview', rfl⟩ := h'.planned_iff.mp (choice.mem hpeek)
    obtain ⟨e, -, he⟩ := bind_eq_some_iff.mp ((hview k).symm.trans hview')
    rw [hdelays.eventTime]
    exact lt_eventTime_evolved he

theorem exists_calls (choice : Peek ℕ ℕ) : ∀ (calls : List (Call Key)) {s : TargetTracker Key},
    Consistent s → ∃ s', calls.foldlM (call choice) s = some s' ∧ Consistent s'
  | [], s, h => ⟨s, rfl, h⟩
  | next :: calls, s, h => by
    obtain ⟨s₁, hs₁, h₁, -⟩ := call_spec choice h next
    obtain ⟨s', hs', h'⟩ := exists_calls choice calls h₁
    exact ⟨s', by rw [List.foldlM_cons, hs₁]; exact hs', h'⟩

/-- A tracker that has been made and called any number of times. -/
theorem exists_run (choice : Peek ℕ ℕ) (handles : Handles) (initialTime : ℕ) (ids : List Key)
    (unbindDelay deleteDelay : ℕ)
    (calls : List (Call Key)) : ∃ s, (new handles initialTime ids unbindDelay deleteDelay).bind
      (calls.foldlM (call choice)) = some s ∧ Consistent s := by
  -- `new` is calls of `requireQueue`
  obtain ⟨s₀, hs₀, h₀⟩ := exists_calls choice (ids.map fun id => .requireQueue initialTime 0 id)
    (empty_consistent handles unbindDelay deleteDelay)
  have hnew : new handles initialTime ids unbindDelay deleteDelay = some { s₀ with generation := 0 } := by
    rw [List.foldlM_map] at hs₀
    simp only [call] at hs₀
    simp [new, hs₀]
  obtain ⟨s, hs, h⟩ := exists_calls choice calls (s := { s₀ with generation := 0 })
    ⟨h₀.byKey, h₀.state, h₀.planned⟩
  exact ⟨s, by rw [hnew]; exact hs, h⟩

/-- After every call of every run the tables describe the same keys, each with the time of its next status
    planned; the call counts iff it changes the target state, and nothing is due after `evolve_until`. -/
theorem run_call_consistent (choice : Peek ℕ ℕ) (handles : Handles) (initialTime : ℕ) (ids : List Key)
    (unbindDelay deleteDelay : ℕ) (calls : List (Call Key)) (next : Call Key) :
    ∃ s s', (new handles initialTime ids unbindDelay deleteDelay).bind (calls.foldlM (call choice)) =
      some s ∧
      s.call choice next = some s' ∧ Consistent s' ∧ (s'.generation ≠ s.generation ↔ s'.state ≠ s.state) ∧
      ∀ now, next = .evolveUntil now → ∀ t, s'.deadline choice = some t → now < t := by
  obtain ⟨s, hs, h⟩ := exists_run choice handles initialTime ids unbindDelay deleteDelay calls
  obtain ⟨s', hs', h', hgeneration, hdeadline⟩ := call_spec choice h next
  exact ⟨s, s', hs, hs', h', not_congr hgeneration, hdeadline⟩

/-! ### A stop on the way -/

theorem evolveUntil_sameTables (h : Consistent s) (wait : ℕ) :
    ∃ s₁ s₂ s', s.evolveUntil choice now = some s₁ ∧
    s₁.evolveUntil choice (now + wait) = some s₂ ∧ s.evolveUntil choice (now + wait) = some s' ∧
    SameTables s₂ s' := by
  obtain ⟨s₁, hs₁, h₁, hdelays₁, hview₁, hkeys₁⟩ := evolveUntil_spec choice h now
  obtain ⟨s₂, hs₂, h₂, hdelays₂, hview₂, hkeys₂⟩ := evolveUntil_spec choice h₁ (now + wait)
  obtain ⟨s', hs', h', hdelays', hview', hkeys'⟩ := evolveUntil_spec choice h (now + wait)
  have hdelays : SameDelays s₂ s' := ⟨by rw [hdelays'.unbind, hdelays₂.unbind, hdelays₁.unbind],
      by rw [hdelays'.delete, hdelays₂.delete, hdelays₁.delete]⟩
  have hview : s₂.view = s'.view := by
    funext k
    rw [hview₂, hview₁, hview', hdelays₁.evolved, bind_assoc]
    exact bind_congr fun e _ => evolved_bind (Nat.le_add_right now wait) e
  refine ⟨s₁, s₂, s', hs₁, hs₂, hs', h₂.sameTables h' hdelays hview (funext fun k => ?_)⟩
  -- the key has its first handle, or none when it is gone
  cases hk : s'.queuesByKey k with
  | none => rw [← h₂.view_eq_none, hview, h'.view_eq_none, hk]
  | some i =>
    cases hk₂ : s₂.queuesByKey k with
    | none =>
      rw [← h₂.view_eq_none, hview, h'.view_eq_none, hk] at hk₂
      exact nomatch hk₂
    | some j => rw [← hkeys' k i hk, ← hkeys₁ k j (hkeys₂ k j hk₂)]

/-- In every tracker that a run reaches, `evolve_until` with an earlier call of it before leaves what it
    leaves alone. -/
theorem evolveUntil_evolveUntil (choice : Peek ℕ ℕ) (handles : Handles) (initialTime : ℕ) (ids : List Key)
    (unbindDelay deleteDelay : ℕ) (calls : List (Call Key)) (now wait : ℕ) :
    ∃ s s₁ s₂ s', (new handles initialTime ids unbindDelay deleteDelay).bind (calls.foldlM (call choice)) =
      some s ∧
      s.evolveUntil choice now = some s₁ ∧ s₁.evolveUntil choice (now + wait) = some s₂ ∧
      s.evolveUntil choice (now + wait) = some s' ∧ SameTables s₂ s' := by
  obtain ⟨s, hs, h⟩ := exists_run choice handles initialTime ids unbindDelay deleteDelay calls
  obtain ⟨s₁, s₂, s', hs₁, hs₂, hs', hsame⟩ := evolveUntil_sameTables h wait
  exact ⟨s, s₁, s₂, s', hs, hs₁, hs₂, hs', hsame⟩

/-! ### Deadlines -/

/-- In every tracker that a run reaches, the deadline is the first time at which the target state changes:
    waiting for it neither misses a change nor ends without one. -/
theorem run_deadline (choice : Peek ℕ ℕ) (handles : Handles) (initialTime : ℕ) (ids : List Key)
    (unbindDelay deleteDelay : ℕ) (calls : List (Call Key)) (now : ℕ) :
    ∃ s s', (new handles initialTime ids unbindDelay deleteDelay).bind (calls.foldlM (call choice)) =
      some s ∧
      s.evolveUntil choice now = some s' ∧ (s'.state = s.state ↔ ∀ t, s.deadline choice = some t →
        now < t) := by
  obtain ⟨s, hs, h⟩ := exists_run choice handles initialTime ids unbindDelay deleteDelay calls
  obtain ⟨s', hs', h', -, hview', -⟩ := evolveUntil_spec choice h now
  refine ⟨s, s', hs, hs', fun heq t ht => ?_, fun hlater => ?_⟩
  · by_contra hdue
    obtain ⟨⟨i, _⟩, hpeek, rfl⟩ := map_eq_some_iff.mp ht
    obtain ⟨-, k, e, -, hview, hdue', -⟩ := queueApplyTransition_spec h (choice.mem hpeek) hdue
    have hstate := congrFun heq k
    rw [h'.state_eq, hview', h.state_eq, hview, bind_some, evolved, if_neg hdue', map_map] at hstate
    exact expectedStatus_ne hdue' (by simpa using hstate)
  · have hstay : s.evolveUntil choice now = some s := by
      rw [evolveUntil, evolveLoop]
      split
      · rfl
      · next i t hpeek => exact if_pos (hlater t (by rw [deadline, hpeek]; rfl))
    rw [some.inj (hs'.symm.trans hstay)]

end Osrd.Osrdyne.TargetTracker
