import Osrd.Osrdyne.TargetTracker
import Osrd.Lib.Partial

/-! What a `TargetTracker` says about a key, over whole runs.

    Each key has a status and a schedule start (`view`); the arena, the index, the planned transitions and
    the status map all describe the same view (`Consistent`). A requirement puts a key into the view, and
    `evolve_until` applies the schedule to every key (`evolved`). -/

namespace Osrd.Osrdyne.TargetTracker

open Containers Option Function

variable {status : QueueStatus}

/-! ### The view of a tracker -/

section View

variable {Key : Type} {s s' : TargetTracker Key}

/-- The status of a key and the start of its schedule. -/
def view (s : TargetTracker Key) (k : Key) : Option (QueueStatus × ℕ) := do
  let queueIdx ← s.queuesByKey k
  let queue ← s.queues.get queueIdx
  let status ← s.state k
  return (status, queue.scheduleStart)

/-- The four tables describe the same keys, and every key has its next transition planned. -/
structure Consistent (s : TargetTracker Key) : Prop where
  byKey : ∀ k i, s.queuesByKey k = some i ↔ ∃ start, s.queues.get i = some ⟨k, start⟩
  state : ∀ k, (s.state k).isSome = (s.queuesByKey k).isSome
  planned : ∀ i t, s.plannedTransitions.lookup i = some t ↔ ∃ k start status,
    s.queues.get i = some ⟨k, start⟩ ∧ s.state k = some status ∧
      t = s.eventTime start status.next

theorem empty_consistent (handles : Handles) (unbindDelay deleteDelay : ℕ) :
    Consistent (empty handles unbindDelay deleteDelay : TargetTracker Key) where
  byKey := by simp [empty, Arena.empty]
  state := fun _ => rfl
  planned := by simp [empty, Arena.empty]

theorem Consistent.tracked (h : Consistent s) {k : Key} {i : ℕ} (hk : s.queuesByKey k = some i) :
    ∃ start status, s.queues.get i = some ⟨k, start⟩ ∧ s.state k = some status ∧
      s.view k = some (status, start) := by
  obtain ⟨start, hget⟩ := (h.byKey k i).mp hk
  obtain ⟨status, hstatus⟩ := isSome_iff_exists.mp ((h.state k).trans (by rw [hk]; rfl))
  exact ⟨start, status, hget, hstatus, by simp [view, hk, hget, hstatus]⟩

theorem Consistent.view_eq_none (h : Consistent s) {k : Key} :
    s.view k = none ↔ s.queuesByKey k = none := by
  cases hk : s.queuesByKey k with
  | none => simp [view, hk]
  | some i =>
    obtain ⟨start, status, -, -, hview⟩ := h.tracked hk
    simp [hview]

theorem Consistent.view_eq_some (h : Consistent s) {k : Key} {i start : ℕ}
    (hget : s.queues.get i = some ⟨k, start⟩) (hstatus : s.state k = some status) :
    s.view k = some (status, start) := by
  simp [view, (h.byKey k i).mpr ⟨start, hget⟩, hget, hstatus]

theorem Consistent.state_eq (h : Consistent s) (k : Key) : s.state k = (s.view k).map Prod.fst := by
  cases hk : s.queuesByKey k with
  | none =>
    have hstate := h.state k
    rw [hk, isSome_none, isSome_eq_false_iff, isNone_iff_eq_none] at hstate
    rw [hstate, h.view_eq_none.mpr hk]
    rfl
  | some i =>
    obtain ⟨start, status, -, hstatus, hview⟩ := h.tracked hk
    rw [hstatus, hview]
    rfl

theorem Consistent.index_iff (h : Consistent s) {i j : ℕ} {k k' : Key} {start : ℕ}
    (hfits : s.queuesByKey k = some i ∨ (s.queuesByKey k = none ∧ s.queues.get i = none))
    (hget : s.queues.get j = some ⟨k', start⟩) : j = i ↔ k' = k := by
  have hj := (h.byKey k' j).mpr ⟨start, hget⟩
  constructor
  · rintro rfl
    rcases hfits with hk | ⟨-, hnone⟩
    · obtain ⟨start', hget'⟩ := (h.byKey k j).mp hk
      rw [hget] at hget'
      cases hget'
      rfl
    · exact nomatch hnone.symm.trans hget
  · rintro rfl
    rcases hfits with hk | ⟨hnone, -⟩
    · exact some.inj (hj.symm.trans hk)
    · exact nomatch hnone.symm.trans hj

structure SameDelays (s s' : TargetTracker Key) : Prop where
  unbind : s'.unbindDelay = s.unbindDelay
  delete : s'.deleteDelay = s.deleteDelay

theorem SameDelays.trans {s'' : TargetTracker Key} (h : SameDelays s s') (h' : SameDelays s' s'') :
    SameDelays s s'' :=
  ⟨h'.unbind.trans h.unbind, h'.delete.trans h.delete⟩

theorem SameDelays.eventTime (h : SameDelays s s') (start : ℕ) (status : Option QueueStatus) :
    s'.eventTime start status = s.eventTime start status := by
  cases status with
  | none => simp [TargetTracker.eventTime, h.unbind, h.delete]
  | some status => cases status <;> simp [TargetTracker.eventTime, h.unbind]

end View

/-! ### Changing one key -/

section Write

variable {Key : Type} [DecidableEq Key] {s s' : TargetTracker Key} {i : ℕ} {k : Key}
  {entry : Option (QueueStatus × ℕ)}

/-- `s'` is `s` with the entry of one key put into the tables, at its own handle or at a new one, or
    removed from them. -/
structure Wrote (s s' : TargetTracker Key) (i : ℕ) (k : Key) (entry : Option (QueueStatus × ℕ)) :
    Prop where
  fits : s.queuesByKey k = some i ∨ (s.queuesByKey k = none ∧ s.queues.get i = none)
  delays : SameDelays s s'
  queues : s'.queues.get = Function.update s.queues.get i (entry.map fun e => ⟨k, e.2⟩)
  byKey : s'.queuesByKey = Function.update s.queuesByKey k (entry.map fun _ => i)
  state : s'.state = Function.update s.state k (entry.map Prod.fst)
  planned : ∀ j t, s'.plannedTransitions.lookup j = some t ↔
    (j = i ∧ ∃ e, entry = some e ∧ t = s.eventTime e.2 e.1.next) ∨
      (j ≠ i ∧ s.plannedTransitions.lookup j = some t)

theorem Wrote.consistent (hw : Wrote s s' i k entry) (h : Consistent s) : Consistent s' where
  byKey := by
    intro k' j
    rw [hw.byKey, hw.queues]
    rcases eq_or_ne k' k with rfl | hk <;> rcases eq_or_ne j i with rfl | hj
    · cases entry <;> simp
    · rw [update_self, update_of_ne hj]
      refine ⟨fun hentry => ?_, fun ⟨start, hget⟩ => absurd ((h.index_iff hw.fits hget).mpr rfl) hj⟩
      obtain ⟨e, -, hi⟩ := map_eq_some_iff.mp hentry
      exact absurd hi.symm hj
    · rw [update_of_ne hk, update_self]
      refine ⟨fun hkj => ?_, fun ⟨start, hget⟩ => ?_⟩
      · obtain ⟨start, hget⟩ := (h.byKey k' j).mp hkj
        exact absurd ((h.index_iff hw.fits hget).mp rfl) hk
      · obtain ⟨e, -, he⟩ := map_eq_some_iff.mp hget
        exact absurd (congrArg Queue.key he).symm hk
    · rw [update_of_ne hk, update_of_ne hj, h.byKey]
  state := by
    intro k'
    rw [hw.byKey, hw.state]
    rcases eq_or_ne k' k with rfl | hk
    · cases entry <;> simp
    · rw [update_of_ne hk, update_of_ne hk, h.state]
  planned := by
    intro j t
    simp only [hw.planned, hw.queues, hw.state, hw.delays.eventTime]
    rcases eq_or_ne j i with rfl | hj
    · rw [update_self]
      cases entry with
      | none => simp
      | some e =>
        constructor
        · rintro (⟨-, e', he, rfl⟩ | ⟨hj, -⟩)
          · cases he
            exact ⟨k, e.2, e.1, rfl, by simp, rfl⟩
          · exact absurd rfl hj
        · rintro ⟨k', start, status, hget, hstate, rfl⟩
          obtain ⟨rfl, rfl⟩ := Queue.mk.inj (some.inj hget)
          obtain rfl : e.1 = status := by simpa using hstate
          exact .inl ⟨rfl, e, rfl, rfl⟩
    · simp only [hj, false_and, ne_eq, not_false_eq_true, true_and, false_or, h.planned, update_of_ne hj]
      refine exists_congr fun k' => exists₂_congr fun start status => and_congr_right fun hget => ?_
      rw [update_of_ne]
      exact fun hk => hj ((h.index_iff hw.fits hget).mpr hk)

theorem Wrote.view_eq (hw : Wrote s s' i k entry) (h : Consistent s) :
    s'.view = update s.view k entry := by
  funext k'
  rcases eq_or_ne k' k with rfl | hk
  · cases entry <;> simp [view, hw.byKey, hw.queues, hw.state]
  · rw [update_of_ne hk, view, hw.byKey, hw.queues, hw.state, update_of_ne hk, update_of_ne hk, view]
    cases hj : s.queuesByKey k' with
    | none => rfl
    | some j =>
      obtain ⟨start, -, hget, -, -⟩ := h.tracked hj
      have hne : j ≠ i := fun hji => hk ((h.index_iff hw.fits hget).mp hji)
      simp [update_of_ne hne]

/-- A key that had a handle keeps it. -/
theorem Wrote.keeps (hw : Wrote s s' i k entry) {e : QueueStatus × ℕ} (hview : s.view k = some e)
    {k' : Key} {j : ℕ} (hj : s'.queuesByKey k' = some j) : s.queuesByKey k' = some j := by
  have hk : s.queuesByKey k = some i := by
    rcases hw.fits with hk | ⟨hnone, -⟩
    · exact hk
    · simp [view, hnone] at hview
  rw [hw.byKey] at hj
  rcases eq_or_ne k' k with rfl | hne
  · rw [update_self] at hj
    obtain ⟨-, -, rfl⟩ := map_eq_some_iff.mp hj
    exact hk
  · rwa [update_of_ne hne] at hj

/-! ### The operations -/

/-- Planning the next transition of a key that has just been put into the tables. -/
theorem queueUpdateTransition_wrote {s₁ : TargetTracker Key} {status : QueueStatus} {start : ℕ}
    (fits : s.queuesByKey k = some i ∨ (s.queuesByKey k = none ∧ s.queues.get i = none))
    (delays : SameDelays s s₁) (queues : s₁.queues.get = update s.queues.get i (some ⟨k, start⟩))
    (byKey : s₁.queuesByKey = update s.queuesByKey k (some i))
    (state : s₁.state = update s.state k (some status))
    (planned : s₁.plannedTransitions = s.plannedTransitions) :
    ∃ s', s₁.queueUpdateTransition i = some s' ∧ Wrote s s' i k (some (status, start)) := by
  refine ⟨{ s₁ with plannedTransitions :=
    s.plannedTransitions.insert i (s.eventTime start status.next) }, ?_, fits,
    ⟨delays.unbind, delays.delete⟩, queues, byKey, state, fun j t => ?_⟩
  · simp [queueUpdateTransition, queues, state, planned, delays.eventTime]
  · rw [PriorityQueue.lookup_insert_eq_some]
    simp

/-- A requirement makes the key active; the extra lifetime only counts for a key that is not tracked. -/
theorem requireQueue_spec (h : Consistent s) (time extraLifetime : ℕ) (k : Key) :
    ∃ s' i, s.requireQueue time extraLifetime k = some s' ∧ Wrote s s' i k
        (some (.Active, if s.view k = none then time + extraLifetime else time)) := by
  cases hk : s.queuesByKey k with
  | none =>
    have hwrote := @queueUpdateTransition_wrote Key _ s s.queues.next k
      (s.createQueue time extraLifetime k) .Active (time + extraLifetime)
      (.inr ⟨hk, s.queues.next_unused⟩) ⟨rfl, rfl⟩ rfl rfl rfl rfl
    obtain ⟨s', hs', hw⟩ := hwrote
    refine ⟨s', s.queues.next, by rw [requireQueue, hk]; exact hs', ?_⟩
    rwa [if_pos (h.view_eq_none.mpr hk)]
  | some i =>
    obtain ⟨start, status, hget, hstatus, hview⟩ := h.tracked hk
    have hqueues := @Arena.get_set _ s.queues i (some ⟨k, time⟩) (by rw [hget]; rfl)
    have hrenew : ∃ s₁, s.renewQueue time i = some s₁ ∧ SameDelays s s₁ ∧
        s₁.queues = s.queues.set i (some ⟨k, time⟩) ∧ s₁.queuesByKey = s.queuesByKey ∧
        s₁.state = update s.state k (some .Active) ∧
        s₁.plannedTransitions = s.plannedTransitions := by
      cases status with
      | Active =>
        refine ⟨{ s with queues := s.queues.set i (some ⟨k, time⟩) }, ?_, ⟨rfl, rfl⟩, rfl, rfl, ?_, rfl⟩
        · simp [renewQueue, hget, hstatus]
        · rw [← hstatus, update_eq_self]
      | Unbound =>
        refine ⟨{ s with
          queues := s.queues.set i (some ⟨k, time⟩)
          state := update s.state k (some .Active)
          generation := s.generation + 1 }, ?_, ⟨rfl, rfl⟩, rfl, rfl, rfl, rfl⟩
        simp [renewQueue, hget, hstatus]
    obtain ⟨s₁, hs₁, delays, queues, byKey, state, planned⟩ := hrenew
    obtain ⟨s', hs', hw⟩ := queueUpdateTransition_wrote (.inl hk) delays (queues ▸ hqueues)
      (by rw [byKey, ← hk, update_eq_self]) state planned
    refine ⟨s', i, by rw [requireQueue, hk]; exact (congrArg (· >>= _) hs₁).trans hs', ?_⟩
    rwa [if_neg (by rw [hview]; simp)]

end Write

/-! ### Evolving -/

section Evolve

variable {Key : Type} {s s' : TargetTracker Key} {now : ℕ}

/-- What becomes of a key at `now`: nothing before its next transition, then what its schedule says. -/
def evolved (s : TargetTracker Key) (now : ℕ) (e : QueueStatus × ℕ) : Option (QueueStatus × ℕ) :=
  if now < s.eventTime e.2 e.1.next then some e
  else (s.expectedStatus e.2 now).map fun status => (status, e.2)

theorem SameDelays.evolved (h : SameDelays s s') : s'.evolved now = s.evolved now := by
  funext e
  simp [TargetTracker.evolved, expectedStatus, h.eventTime]

variable {start : ℕ}

/-- The schedule of a key that is still tracked. -/
theorem evolved_eq (h : status = .Unbound → start + s.unbindDelay ≤ now) : s.evolved now (status, start) =
      if now < start + s.unbindDelay then some (.Active, start)
      else if now < start + s.unbindDelay + s.deleteDelay then some (.Unbound, start) else none := by
  have hexpected : s.expectedStatus start now =
      if now < start + s.unbindDelay then some .Active
      else if now < start + s.unbindDelay + s.deleteDelay then some .Unbound else none := rfl
  rw [evolved]
  split
  · next hlt =>
    cases status with
    | Active => exact (if_pos hlt).symm
    | Unbound =>
      rw [if_neg (h rfl).not_gt]
      exact (if_pos hlt).symm
  · rw [hexpected]
    split
    · rfl
    · split <;> rfl

/-- The expected status lasts beyond `now`. -/
theorem lt_eventTime_expectedStatus
    (h : s.expectedStatus start now = some status) : now < s.eventTime start status.next := by
  rw [expectedStatus] at h
  split at h
  · next hlt =>
    cases h
    exact hlt
  · split at h
    · next hlt =>
      cases h
      exact hlt
    · cases h

theorem lt_eventTime_evolved {e e' : QueueStatus × ℕ} (h : s.evolved now e = some e') :
    now < s.eventTime e'.2 e'.1.next := by
  rw [evolved] at h
  split at h
  · next hlt =>
    cases h
    exact hlt
  · obtain ⟨status, hstatus, rfl⟩ := map_eq_some_iff.mp h
    exact lt_eventTime_expectedStatus hstatus

/-- A stop on the way changes nothing. -/
theorem evolved_bind {later : ℕ} (hle : now ≤ later) (e : QueueStatus × ℕ) :
    (s.evolved now e).bind (s.evolved later) = s.evolved later e := by
  obtain ⟨status, start⟩ := e
  cases status <;> grind [evolved, expectedStatus]

/-- At the end of its status a key is expected to have another one. -/
theorem expectedStatus_ne
    (h : ¬ now < s.eventTime start status.next) : s.expectedStatus start now ≠ some status :=
  fun hstatus => h (lt_eventTime_expectedStatus hstatus)

variable [DecidableEq Key]

/-- Once a due transition is applied, one transition less is due. -/
theorem Wrote.count_lt {i t : ℕ} {k : Key} {e : QueueStatus × ℕ} (hw : Wrote s s' i k (s.evolved now e))
    (hplanned : s.plannedTransitions.lookup i = some t) (hdue : t ≤ now) :
    s'.plannedTransitions.count (· ≤ now) < s.plannedTransitions.count (· ≤ now) := by
  refine PriorityQueue.count_lt_count hplanned (decide_eq_true hdue) (fun u hu => ?_) fun j u hu hle => ?_
  · rcases (hw.planned i u).mp hu with ⟨-, e', he', rfl⟩ | ⟨hne, -⟩
    · simpa using lt_eventTime_evolved he'
    · exact absurd rfl hne
  · rcases (hw.planned j u).mp hu with ⟨-, e', he', rfl⟩ | ⟨-, hu⟩
    · exact absurd (lt_eventTime_evolved he') (not_lt.mpr (of_decide_eq_true hle))
    · exact hu

/-- A due transition gives the key its expected status. -/
theorem queueApplyTransition_spec (h : Consistent s) {i t : ℕ}
    (hplanned : s.plannedTransitions.lookup i = some t) (hdue : ¬ now < t) :
    ∃ s' k e, s.queueApplyTransition now i = some s' ∧ s.view k = some e ∧
      ¬ now < s.eventTime e.2 e.1.next ∧ Wrote s s' i k (s.evolved now e) := by
  obtain ⟨k, start, status, hget, hstatus, rfl⟩ := (h.planned i t).mp hplanned
  have hk := (h.byKey k i).mpr ⟨start, hget⟩
  have hview := h.view_eq_some hget hstatus
  have hevolved : s.evolved now (status, start) =
      (s.expectedStatus start now).map fun status => (status, start) := if_neg hdue
  have hne := expectedStatus_ne hdue
  cases hexpected : s.expectedStatus start now with
  | none =>
    rw [hexpected] at hevolved
    refine ⟨{ s with
      plannedTransitions := s.plannedTransitions.erase i
      queuesByKey := update s.queuesByKey k none
      state := update s.state k none
      generation := s.generation + 1
      queues := s.queues.set i none }, k, (status, start), ?_, hview, hdue, ?_⟩
    · simp [queueApplyTransition, hget, hstatus, hexpected]
    · rw [hevolved]
      refine ⟨.inl hk, ⟨rfl, rfl⟩, Arena.get_set (by rw [hget]; rfl), rfl, rfl, fun j t => ?_⟩
      rw [PriorityQueue.lookup_erase_eq_some]
      simp
  | some newStatus =>
    rw [hexpected] at hevolved hne
    obtain ⟨s', hs', hw⟩ := @queueUpdateTransition_wrote Key _ s i k { s with
      state := update s.state k (some newStatus)
      generation := s.generation + 1 } newStatus start (.inl hk) ⟨rfl, rfl⟩
      (by rw [← hget, update_eq_self]) (by rw [← hk, update_eq_self]) rfl rfl
    refine ⟨s', k, (status, start), ?_, hview, hdue, hevolved ▸ hw⟩
    have hne' : ¬ status = newStatus := fun heq => hne (congrArg some heq).symm
    simpa [queueApplyTransition, hget, hstatus, hexpected, hne'] using hs'

/-- The loop ends, with the schedule applied to every key. -/
theorem evolveLoop_spec (choice : Peek ℕ ℕ) (now : ℕ) : ∀ (fuel : ℕ) (s : TargetTracker Key),
    Consistent s → s.plannedTransitions.count (· ≤ now) < fuel →
    ∃ s', evolveLoop choice now fuel s = some s' ∧ Consistent s' ∧ SameDelays s s' ∧
      (∀ k, s'.view k = (s.view k).bind (s.evolved now)) ∧
      ∀ k i, s'.queuesByKey k = some i → s.queuesByKey k = some i
  | 0, s, _, hfuel => absurd hfuel (Nat.not_lt_zero _)
  | fuel + 1, s, h, hfuel => by
    -- a key whose transition is not due stays as it is
    have hstay : (∀ i t, s.plannedTransitions.lookup i = some t → now < t) →
        ∀ k, s.view k = (s.view k).bind (s.evolved now) := by
      intro hlater k
      cases hk : s.queuesByKey k with
      | none => rw [h.view_eq_none.mpr hk]; rfl
      | some i =>
        obtain ⟨start, status, hget, hstatus, hview⟩ := h.tracked hk
        have hlt := hlater i _ ((h.planned i _).mpr ⟨k, start, status, hget, hstatus, rfl⟩)
        rw [hview, bind_some, evolved, if_pos hlt]
    rw [evolveLoop]
    split
    · next hpeek =>
      refine ⟨s, rfl, h, ⟨rfl, rfl⟩, hstay ?_, fun _ _ hk => hk⟩
      rw [(choice.none_iff _).mp hpeek]
      simp
    · next i t hpeek =>
      split
      · next hlt =>
        exact ⟨s, rfl, h, ⟨rfl, rfl⟩, hstay fun i t ht => hlt.trans_le (choice.least hpeek i t ht),
          fun _ _ hk => hk⟩
      · next hdue =>
        obtain ⟨s₁, k, e, hs₁, hview, -, hw⟩ := queueApplyTransition_spec h (choice.mem hpeek) hdue
        have hcount := hw.count_lt (choice.mem hpeek) (not_lt.mp hdue)
        obtain ⟨s', hs', h', hdelays, hview', hkeys⟩ :=
          evolveLoop_spec choice now fuel s₁ (hw.consistent h) (by omega)
        refine ⟨s', by rw [hs₁]; exact hs', h', hw.delays.trans hdelays, fun k' => ?_,
          fun k' j hj => hw.keeps hview (hkeys k' j hj)⟩
        rw [hview', hw.view_eq h, hw.delays.evolved]
        rcases eq_or_ne k' k with rfl | hk
        · rw [update_self, hview]
          exact evolved_bind le_rfl e
        · rw [update_of_ne hk]

theorem evolveUntil_spec (choice : Peek ℕ ℕ) (h : Consistent s) (now : ℕ) :
    ∃ s', s.evolveUntil choice now = some s' ∧ Consistent s' ∧ SameDelays s s' ∧
      (∀ k, s'.view k = (s.view k).bind (s.evolved now)) ∧
      ∀ k i, s'.queuesByKey k = some i → s.queuesByKey k = some i :=
  evolveLoop_spec choice now _ s h (Nat.lt_succ_of_le (Finset.card_filter_le _ _))

end Evolve

end Osrd.Osrdyne.TargetTracker
