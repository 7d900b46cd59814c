import Osrd.Lib.Containers

/-! Model of `TargetTracker` (`osrdyne/src/target_tracker.rs`): the target status of every queue, kept
    up to date by planned transitions.

    Instants and durations are whole numbers; an indexing that panics answers `none`. -/

namespace Osrd.Osrdyne

open Containers
open Function (update)

/-- A queue that is not in the target state is to be deleted. -/
inductive QueueStatus
  | Active
  | Unbound
deriving DecidableEq

/-- The status after this one; `none` is the end of the queue. -/
def QueueStatus.next : QueueStatus → Option QueueStatus
  | .Active => some .Unbound
  | .Unbound => none

/-- A queue, as the arena stores it. -/
structure Queue (Key : Type) where
  key : Key
  /-- The reference time of the spooldown schedule. -/
  scheduleStart : ℕ

/-- The planned transitions are by the handle of the queue. The generation counts the changes of the state.
    -/
structure TargetTracker (Key : Type) where
  unbindDelay : ℕ
  deleteDelay : ℕ
  queues : Arena (Queue Key)
  queuesByKey : Key → Option ℕ
  plannedTransitions : PriorityQueue ℕ ℕ
  state : Key → Option QueueStatus
  generation : ℕ

namespace TargetTracker

variable {Key : Type} [DecidableEq Key] (s : TargetTracker Key)

/-- When a queue that was last used at a time comes to a status. -/
def eventTime (lastUsedAt : ℕ) : Option QueueStatus → ℕ
  | some .Active => lastUsedAt
  | some .Unbound => lastUsedAt + s.unbindDelay
  | none => lastUsedAt + s.unbindDelay + s.deleteDelay

/-- The loop over the statuses, each with the time at which it ends. -/
def expectedStatus (lastUsedAt now : ℕ) : Option QueueStatus :=
  if now < s.eventTime lastUsedAt QueueStatus.Active.next then some .Active
  else if now < s.eventTime lastUsedAt QueueStatus.Unbound.next then some .Unbound
  else none

/-- Plans the next transition of a queue. -/
def queueUpdateTransition (queueIdx : ℕ) : Option (TargetTracker Key) := do
  let queue ← s.queues.get queueIdx
  let currentStatus ← s.state queue.key
  let transitionTime := s.eventTime queue.scheduleStart currentStatus.next
  return { s with plannedTransitions := s.plannedTransitions.insert queueIdx transitionTime }

/-- Gives a queue the status that is expected at the time, or removes it. -/
def queueApplyTransition (time queueIdx : ℕ) : Option (TargetTracker Key) := do
  let queue ← s.queues.get queueIdx
  let current ← s.state queue.key
  let expected := s.expectedStatus queue.scheduleStart time
  if some current = expected then
    -- inconsistent state: no transition required
    return s
  else
    match expected with
    | some newStatus =>
        queueUpdateTransition { s with
          state := update s.state queue.key (some newStatus)
          generation := s.generation + 1 } queueIdx
    | none =>
        return { s with
          plannedTransitions := s.plannedTransitions.erase queueIdx
          queuesByKey := update s.queuesByKey queue.key none
          state := update s.state queue.key none
          generation := s.generation + 1
          queues := s.queues.set queueIdx none }

/-- Makes an existing queue active and restarts its schedule. -/
def renewQueue (time queueIdx : ℕ) : Option (TargetTracker Key) := do
  let queue ← s.queues.get queueIdx
  let queues := s.queues.set queueIdx (some { queue with scheduleStart := time })
  let current ← s.state queue.key
  if current ≠ .Active then
    return { s with
      queues := queues
      state := update s.state queue.key (some .Active)
      generation := s.generation + 1 }
  else return { s with queues := queues }

/-- A new queue is active, and its schedule starts after its extra lifetime. -/
def createQueue (time extraLifetime : ℕ) (key : Key) : TargetTracker Key :=
  { s with
    queues := s.queues.insert ⟨key, time + extraLifetime⟩
    queuesByKey := update s.queuesByKey key (some s.queues.next)
    state := update s.state key (some .Active)
    generation := s.generation + 1 }

/-- A worker of the key is asked for. -/
def requireQueue (time extraLifetime : ℕ) (key : Key) : Option (TargetTracker Key) :=
  match s.queuesByKey key with
  | some queueIdx => do
      let s ← s.renewQueue time queueIdx
      s.queueUpdateTransition queueIdx
  | none => (s.createQueue time extraLifetime key).queueUpdateTransition s.queues.next

/-- The loop of `evolve_until`; `none` also when the fuel runs out. -/
def evolveLoop (choice : Peek ℕ ℕ) (now : ℕ) : ℕ → TargetTracker Key → Option (TargetTracker Key)
  | 0, _ => none
  | fuel + 1, s =>
      match choice.peek s.plannedTransitions with
      | none => some s
      | some (queueIdx, transitionAt) =>
          if now < transitionAt then some s
          else (s.queueApplyTransition now queueIdx).bind (evolveLoop choice now fuel)

/-- Turns that suffice: one for each planned transition, and the last one. -/
def evolveUntil (choice : Peek ℕ ℕ) (s : TargetTracker Key) (now : ℕ) : Option (TargetTracker Key) :=
  evolveLoop choice now (s.plannedTransitions.keys.card + 1) s

/-- The tracker without queues. -/
def empty (handles : Handles) (unbindDelay deleteDelay : ℕ) : TargetTracker Key where
  unbindDelay := unbindDelay
  deleteDelay := deleteDelay
  queues := .empty handles
  queuesByKey := fun _ => none
  plannedTransitions := ∅
  state := fun _ => none
  generation := 0

/-- The workers that are there at first do not count as changes. -/
def new (handles : Handles) (initialTime : ℕ) (initialWorkerIds : List Key)
    (unbindDelay deleteDelay : ℕ) : Option (TargetTracker Key) := do
  let s ← initialWorkerIds.foldlM (fun s id => s.requireQueue initialTime 0 id)
    (empty handles unbindDelay deleteDelay)
  return { s with generation := 0 }

/-- The time of the first planned transition. -/
def deadline (choice : Peek ℕ ℕ) (s : TargetTracker Key) : Option ℕ :=
  (choice.peek s.plannedTransitions).map Prod.snd

end TargetTracker

end Osrd.Osrdyne
