import Osrd.Osrdyne.Schedule

/-! A tracker over whole runs: the status of a key is the one that its last requirement schedules.

    A requirement of a tracked key starts its schedule without the extra lifetime, so the law holds of the
    runs in which no tracked key is given one. -/

namespace Osrd.Osrdyne.TargetTracker

open Containers Function

variable {Key : Type} {s s' : TargetTracker Key} {now : ℕ}

/-- The status that the last requirement of a key, with its time and extra lifetime, gives it. -/
def scheduledStatus (unbindDelay deleteDelay : ℕ) (last : Option (ℕ × ℕ)) (now : ℕ) :
    Option QueueStatus :=
  match last with
  | none => none
  | some (time, extraLifetime) =>
      if now < time + extraLifetime + unbindDelay then some .Active
      else if now < time + extraLifetime + unbindDelay + deleteDelay then some .Unbound
      else none

/-- How far a key has come on the schedule of its last requirement. -/
inductive OnSchedule (unbindDelay deleteDelay time : ℕ) :
    Option (ℕ × ℕ) → Option (QueueStatus × ℕ) → Prop
  | never : OnSchedule unbindDelay deleteDelay time none none
  | active (t x : ℕ) : OnSchedule unbindDelay deleteDelay time (some (t, x)) (some (.Active, t + x))
  | unbound (t x : ℕ) : t + x + unbindDelay ≤ time →
      OnSchedule unbindDelay deleteDelay time (some (t, x)) (some (.Unbound, t + x))
  | deleted (t x : ℕ) : t + x + unbindDelay + deleteDelay ≤ time →
      OnSchedule unbindDelay deleteDelay time (some (t, x)) none

theorem OnSchedule.mono {unbindDelay deleteDelay time time' : ℕ} {last : Option (ℕ × ℕ)}
    {e : Option (QueueStatus × ℕ)} (h : OnSchedule unbindDelay deleteDelay time last e)
    (hle : time ≤ time') : OnSchedule unbindDelay deleteDelay time' last e := by
  cases h with
  | never => exact .never
  | active t x => exact .active t x
  | unbound t x ht => exact .unbound t x (ht.trans hle)
  | deleted t x ht => exact .deleted t x (ht.trans hle)

theorem OnSchedule.evolved {time : ℕ} {last : Option (ℕ × ℕ)} {e : Option (QueueStatus × ℕ)}
    (h : OnSchedule s.unbindDelay s.deleteDelay time last e) (hle : time ≤ now) :
    OnSchedule s.unbindDelay s.deleteDelay now last (e.bind (s.evolved now)) ∧
      (e.bind (s.evolved now)).map Prod.fst = scheduledStatus s.unbindDelay s.deleteDelay last now := by
  have htracked : ∀ {status t x}, (status = .Unbound → t + x + s.unbindDelay ≤ now) →
      OnSchedule s.unbindDelay s.deleteDelay now (some (t, x)) (s.evolved now (status, t + x)) ∧
        (s.evolved now (status, t + x)).map Prod.fst =
          scheduledStatus s.unbindDelay s.deleteDelay (some (t, x)) now := by
    intro status t x hstatus
    rw [evolved_eq hstatus, scheduledStatus]
    split
    · exact ⟨.active t x, rfl⟩
    · next hunbind =>
      split
      · exact ⟨.unbound t x (not_lt.mp hunbind), rfl⟩
      · next hdelete => exact ⟨.deleted t x (not_lt.mp hdelete), rfl⟩
  cases h with
  | never => exact ⟨.never, rfl⟩
  | active t x => exact htracked fun h => nomatch h
  | unbound t x ht => exact htracked fun _ => ht.trans hle
  | deleted t x ht =>
    refine ⟨.deleted t x (ht.trans hle), ?_⟩
    rw [scheduledStatus, if_neg (by omega), if_neg (by omega)]
    rfl

variable [DecidableEq Key]

/-- A requirement that gives no extra lifetime to a tracked key starts the schedule it asks for. -/
theorem requireQueue_onSchedule (h : Consistent s) {last : Key → Option (ℕ × ℕ)}
    {time extraLifetime : ℕ} {key : Key} (hextra : s.state key = none ∨ extraLifetime = 0)
    (hlast : ∀ k, OnSchedule s.unbindDelay s.deleteDelay time (last k) (s.view k)) :
    ∃ s', s.requireQueue time extraLifetime key = some s' ∧ Consistent s' ∧ SameDelays s s' ∧
      ∀ k, OnSchedule s.unbindDelay s.deleteDelay time
        (update last key (some (time, extraLifetime)) k) (s'.view k) := by
  obtain ⟨s', i, hs', hw⟩ := requireQueue_spec h time extraLifetime key
  refine ⟨s', hs', hw.consistent h, hw.delays, fun k => ?_⟩
  have hstart : (if s.view key = none then time + extraLifetime else time) =
      time + extraLifetime := by
    rcases hextra with hnone | rfl
    · rw [h.state_eq, Option.map_eq_none_iff] at hnone
      rw [if_pos hnone]
    · rw [Nat.add_zero, ite_self]
  rw [hw.view_eq h, hstart]
  rcases eq_or_ne k key with rfl | hk
  · rw [update_self, update_self]
    exact .active time extraLifetime
  · rw [update_of_ne hk, update_of_ne hk]
    exact hlast k

theorem foldlM_requireQueue_onSchedule {time : ℕ} : ∀ (ids : List Key) (s : TargetTracker Key)
    (last : Key → Option (ℕ × ℕ)), Consistent s →
    (∀ k, OnSchedule s.unbindDelay s.deleteDelay time (last k) (s.view k)) →
    ∃ s', ids.foldlM (fun s id => s.requireQueue time 0 id) s = some s' ∧ Consistent s' ∧
      SameDelays s s' ∧ ∀ k, OnSchedule s.unbindDelay s.deleteDelay time
        (if k ∈ ids then some (time, 0) else last k) (s'.view k)
  | [], s, last, h, hlast => ⟨s, rfl, h, ⟨rfl, rfl⟩, by simpa using hlast⟩
  | id :: ids, s, last, h, hlast => by
    obtain ⟨s₁, hs₁, h₁, hdelays, hlast₁⟩ :=
      requireQueue_onSchedule h (.inr rfl : s.state id = none ∨ 0 = 0) hlast
    rw [← hdelays.unbind, ← hdelays.delete] at hlast₁
    obtain ⟨s', hs', h', hdelays', hlast'⟩ := foldlM_requireQueue_onSchedule ids s₁ _ h₁ hlast₁
    refine ⟨s', ?_, h', hdelays.trans hdelays', fun k => ?_⟩
    · rw [List.foldlM_cons, hs₁]
      exact hs'
    · rw [← hdelays.unbind, ← hdelays.delete]
      convert hlast' k using 1
      by_cases hk : k ∈ ids
      · rw [if_pos hk, if_pos (List.mem_cons_of_mem id hk)]
      · rcases eq_or_ne k id with rfl | hne
        · rw [if_pos List.mem_cons_self, if_neg hk, update_self]
        · rw [if_neg hk, if_neg (by simp [hk, hne]), update_of_ne hne]

theorem new_onSchedule (handles : Handles) (initialTime : ℕ) (ids : List Key)
    (unbindDelay deleteDelay : ℕ) : ∃ s, new handles initialTime ids unbindDelay deleteDelay = some s ∧
      Consistent s ∧ s.unbindDelay = unbindDelay ∧ s.deleteDelay = deleteDelay ∧
      ∀ k, OnSchedule unbindDelay deleteDelay initialTime
        (if k ∈ ids then some (initialTime, 0) else none) (s.view k) := by
  obtain ⟨s, hs, h, hdelays, hlast⟩ := foldlM_requireQueue_onSchedule ids
    (empty handles unbindDelay deleteDelay) (fun _ => none)
    (empty_consistent handles unbindDelay deleteDelay) fun _ => .never
  refine ⟨{ s with generation := 0 }, ?_, ⟨h.byKey, h.state, h.planned⟩, hdelays.unbind,
    hdelays.delete, hlast⟩
  rw [new, hs]
  rfl

/-- The states of a tracker after calls with non-decreasing times, with the last requirement of each
    key and the time of the last call. No requirement gives an extra lifetime to a tracked key. -/
inductive Run (choice : Peek ℕ ℕ) (unbindDelay deleteDelay : ℕ) :
    TargetTracker Key → (Key → Option (ℕ × ℕ)) → ℕ → Prop
  | new {s : TargetTracker Key} {handles : Handles} {initialTime : ℕ} {initialWorkerIds : List Key} :
      new handles initialTime initialWorkerIds unbindDelay deleteDelay = some s →
      Run choice unbindDelay deleteDelay s
        (fun k => if k ∈ initialWorkerIds then some (initialTime, 0) else none) initialTime
  | requireQueue {s s' : TargetTracker Key} {last : Key → Option (ℕ × ℕ)} {before time : ℕ}
      {extraLifetime : ℕ} {key : Key} :
      Run choice unbindDelay deleteDelay s last before → before ≤ time →
      s.state key = none ∨ extraLifetime = 0 →
      s.requireQueue time extraLifetime key = some s' →
      Run choice unbindDelay deleteDelay s'
        (update last key (some (time, extraLifetime))) time
  | evolveUntil {s s' : TargetTracker Key} {last : Key → Option (ℕ × ℕ)} {before now : ℕ} :
      Run choice unbindDelay deleteDelay s last before → before ≤ now →
      s.evolveUntil choice now = some s' → Run choice unbindDelay deleteDelay s' last now

variable {choice : Peek ℕ ℕ} {unbindDelay deleteDelay time : ℕ} {last : Key → Option (ℕ × ℕ)}
  (hr : Run choice unbindDelay deleteDelay s last time)

include hr in
/-- Every key of a state reached is on the schedule of its last requirement. -/
theorem Run.onSchedule : Consistent s ∧ s.unbindDelay = unbindDelay ∧ s.deleteDelay = deleteDelay ∧
      ∀ k, OnSchedule unbindDelay deleteDelay time (last k) (s.view k) := by
  induction hr with
  | @new s handles initialTime ids hs =>
    obtain ⟨s', hs', hnew⟩ := new_onSchedule handles initialTime ids unbindDelay deleteDelay
    cases hs.symm.trans hs'
    exact hnew
  | requireQueue hr hle hextra hs ih =>
    obtain ⟨h, rfl, rfl, hlast⟩ := ih
    obtain ⟨s', hs', h', hdelays, hlast'⟩ := requireQueue_onSchedule h hextra fun k => (hlast k).mono hle
    cases hs.symm.trans hs'
    exact ⟨h', hdelays.unbind, hdelays.delete, hlast'⟩
  | evolveUntil hr hle hs ih =>
    obtain ⟨h, rfl, rfl, hlast⟩ := ih
    obtain ⟨s', hs', h', hdelays, hview, -⟩ := evolveUntil_spec choice h _
    cases hs.symm.trans hs'
    refine ⟨h', hdelays.unbind, hdelays.delete, fun k => ?_⟩
    rw [hview]
    exact ((hlast k).evolved hle).1

include hr in
/-- In every run every call returns, and after `evolve_until` every key has the status that its last
    requirement schedules. -/
theorem evolveUntil_scheduledStatus : (∀ now, time ≤ now → ∃ s', s.evolveUntil choice now = some s' ∧
      ∀ k, s'.state k = scheduledStatus unbindDelay deleteDelay (last k) now) ∧
    ∀ start extraLifetime key, (s.requireQueue start extraLifetime key).isSome := by
  obtain ⟨h, rfl, rfl, hlast⟩ := hr.onSchedule
  constructor
  · intro now hle
    obtain ⟨s', hs', h', -, hview, -⟩ := evolveUntil_spec choice h now
    refine ⟨s', hs', fun k => ?_⟩
    rw [h'.state_eq, hview]
    exact ((hlast k).evolved hle).2
  · intro start extraLifetime key
    obtain ⟨s', -, hs', -⟩ := requireQueue_spec h start extraLifetime key
    rw [hs']
    rfl

theorem evolveUntil_required_once : ∃ s s' : TargetTracker Unit,
    (empty (.refl ℕ) 10 10).requireQueue 0 5 () = some s ∧ s.evolveUntil (Peek.first ℕ ℕ) 12 = some s' ∧
      s'.state () = scheduledStatus 10 10 (some (0, 5)) 12 := by
  have hnew : Run (Peek.first ℕ ℕ) 10 10 (empty (.refl ℕ) 10 10 : TargetTracker Unit) _ 0 :=
    .new (rfl : new (.refl ℕ) 0 [] 10 10 = some (empty (.refl ℕ) 10 10))
  have hrun := hnew.requireQueue (Nat.le_refl 0) (.inl rfl)
    (rfl : (empty (.refl ℕ) 10 10).requireQueue 0 5 () = some _)
  obtain ⟨s', hs', hstate⟩ := (evolveUntil_scheduledStatus hrun).1 12 (by decide)
  exact ⟨_, s', rfl, hs', hstate ()⟩

/-- A worker group required again with an extra lifetime of 5 is unbound before 0 + 5 + 10. -/
theorem requireQueue_drops_extraLifetime : (do
      let s ← new (.refl ℕ) 0 [()] 10 10 let s ← s.requireQueue 0 5 ()
      let s ← s.evolveUntil (Peek.first ℕ ℕ) 12 return s.state ()) = some (some .Unbound) ∧
    scheduledStatus 10 10 (some (0, 5)) 12 = some .Active := by
  decide

end Osrd.Osrdyne.TargetTracker
