import Mathlib.Data.String.Basic
import Osrd.Lib.JoinSet
import Osrd.Lib.OrdMap
import Osrd.Osrdyne.TargetTracker

/-! Model of `queues_control_loop` and `update_queue` (`osrdyne/src/queue_controller.rs`): jobs that bring
    the queues of the broker to their target, started when the target changes and joined as they end.

    The loop interleaves with its jobs: a job ends at any moment after it is spawned, and is joined at any
    moment after that (`Run`). -/

namespace Osrd.Osrdyne

open Containers

structure Key where
  encode : String

instance : LinearOrder Key :=
  LinearOrder.lift' Key.encode fun _ _ h => Key.mk.injEq _ _ ▸ h

structure Pool where
  requestXchg : String
  poolReqPrefix : String

def Pool.keyQueueName (pool : Pool) (key : Key) : String := pool.poolReqPrefix ++ key.encode

/-! ### The job of a queue -/

/-- The commands sent on the channel. -/
inductive Command
  | queueDeclare (queue : String)
  | queueBind (queue exchange routingKey : String)
  | queueUnbind (queue exchange routingKey : String)
  | queueDelete (queue : String) (ifEmpty : Bool)

inductive ErrorKind
  | ProtocolError (err : String)
  | other (err : String)

inductive QueueUpdateError
  | QueueNotEmpty (key : Key)
  | LapinError (err : ErrorKind)

/-- `chan` gives the answer of the broker to each command of the job. -/
def updateQueue (pool : Pool) (chan : Command → Except ErrorKind Unit) (key : Key)
    (newState : Option QueueStatus) : Except QueueUpdateError (Key × Option QueueStatus) := do
  let queueName := pool.keyQueueName key
  match newState with
  | some .Active =>
      (chan (.queueDeclare queueName)).mapError .LapinError
      (chan (.queueBind queueName pool.requestXchg key.encode)).mapError .LapinError
  | some .Unbound =>
      (chan (.queueDeclare queueName)).mapError .LapinError
      (chan (.queueUnbind queueName pool.requestXchg key.encode)).mapError .LapinError
  | none =>
      (chan (.queueUnbind queueName pool.requestXchg key.encode)).mapError .LapinError
      match chan (.queueDelete queueName true) with
      -- assuming a non empty queue
      | .error (.ProtocolError _) => throw (.QueueNotEmpty key)
      | res => res.mapError .LapinError
  return (key, newState)

/-! ### The loop -/

abbrev QueueStateMap := OrdMap Key QueueStatus

structure TargetUpdate where
  generation : ℕ
  queues : QueueStateMap

structure QueuesState where
  targetGeneration : ℕ
  queues : QueueStateMap

abbrev Job := Key × Option QueueStatus

/-- The variables of the loop, with the state it reports. -/
structure Controller where
  jobs : JoinSet Job (Except QueueUpdateError Job)
  jobsByKey : Key → Option ℕ
  target : TargetUpdate
  state : QueuesState

variable (s : Controller)

namespace Controller

def spawnJob (job : Job) : Controller :=
  { s with
    jobs := s.jobs.spawn job
    jobsByKey := Function.update s.jobsByKey job.1 (some s.jobs.next) }

/-- One turn of the loop over the initial keys. -/
def startKey (queue : Key) : Controller :=
  -- at startup, assume all queues are unbound
  let s := { s with state := { s.state with queues := s.state.queues.insert queue .Unbound } }
  -- remove queues which aren't supposed to be there
  if queue ∈ s.target.queues then s else s.spawnJob (queue, none)

/-- The loop before its first event. -/
def start (handles : Handles) (target : TargetUpdate) (initialKeys : List Key) : Controller :=
  let s : Controller := ⟨.empty handles, fun _ => none, target, ⟨target.generation, ∅⟩⟩
  let s := initialKeys.foldl startKey s
  -- set all queues to the target state
  target.queues.iter.foldl (fun s (queue, queueStatus) => s.spawnJob (queue, some queueStatus)) s

/-- Starts the job of a change and cancels the one before it. -/
def applyChange (change : Job) : Controller :=
  let s' := s.spawnJob change
  match s.jobsByKey change.1 with
  | some previousJob => { s' with jobs := s'.jobs.abort previousJob }
  | none => s'

/-- A new target state arrived. -/
def targetChanged (differences : Diff Key QueueStatus) (s : Controller) (newTarget : TargetUpdate) :
    Controller :=
  let s := ((differences.diff s.target.queues newTarget.queues).map DiffItem.change).foldl applyChange s
  { s with
    target := newTarget
    state := { s.state with targetGeneration := newTarget.generation } }

end Controller

inductive Control
  | running (s : Controller)
  | stopped (s : Controller)
  | panicked

/-- Update the reported state on job completion; both results are unwrapped. -/
def Controller.jobCompleted : Except JoinError (Except QueueUpdateError Job) → Control
  | .ok (.ok (jobKey, newStatus)) =>
      .running { s with
        jobsByKey := Function.update s.jobsByKey jobKey none
        state := { s.state with
          queues := match newStatus with
            | some newStatus => s.state.queues.insert jobKey newStatus
            | none => s.state.queues.erase jobKey } }
  | .ok (.error _) => .panicked
  | .error _ => .panicked

/-- What the loop can reach when the broker obeys every command; `allowed` restricts the targets it
    receives. -/
inductive Run (pool : Pool) (allowed : Controller → TargetUpdate → Prop) : Control → Prop
  | start (handles : Handles) (target : TargetUpdate) (initialKeys : List Key) :
      Run pool allowed (.running (Controller.start handles target initialKeys))
  | finished {s : Controller} {i : ℕ} {job : Job} {chan : Command → Except ErrorKind Unit} :
      Run pool allowed (.running s) → s.jobs.get i = some (.running job) →
      (∀ command, chan command = .ok ()) →
      Run pool allowed (.running { s with
        jobs := s.jobs.set i (some (.finished (updateQueue pool chan job.1 job.2))) })
  | jobCompleted {s : Controller} {i : ℕ} {jobs : JoinSet Job (Except QueueUpdateError Job)}
      {completion : Except JoinError (Except QueueUpdateError Job)} :
      Run pool allowed (.running s) → s.jobs.join i = some (completion, jobs) →
      Run pool allowed (Controller.jobCompleted { s with jobs := jobs } completion)
  | targetChanged {s : Controller} {newTarget : TargetUpdate} (differences : Diff Key QueueStatus) :
      Run pool allowed (.running s) → allowed s newTarget →
      Run pool allowed (.running (s.targetChanged differences newTarget))
  | senderDropped {s : Controller} : Run pool allowed (.running s) → Run pool allowed (.stopped s)

end Osrd.Osrdyne
