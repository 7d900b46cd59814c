import Osrd.Lib.Containers

/-! A set of concurrent tasks. A task runs until it ends with a result or is aborted, and stays in the set
    until it is joined; tasks that have ended are joined in any order. -/

namespace Containers

inductive Task (Job Result : Type)
  | running (job : Job)
  | finished (result : Result)
  | aborted

/-- Why a task has no result. -/
inductive JoinError
  | cancelled

abbrev JoinSet (Job Result : Type) := Arena (Task Job Result)

namespace JoinSet

variable {Job Result : Type} (tasks : JoinSet Job Result)

/-- The handle of the new task is `tasks.next`. -/
def spawn (job : Job) : JoinSet Job Result :=
  tasks.insert (.running job)

/-- A task that has ended is not changed. -/
def abort (i : ℕ) : JoinSet Job Result :=
  match tasks.get i with
  | some (.running _) => tasks.set i (some .aborted)
  | _ => tasks

/-- The result of a task that has ended, and the other tasks. -/
def join (i : ℕ) : Option (Except JoinError Result × JoinSet Job Result) :=
  match tasks.get i with
  | some (.finished result) => some (.ok result, tasks.set i none)
  | some .aborted => some (.error .cancelled, tasks.set i none)
  | _ => none

/-- Only tasks that have ended are joined. -/
theorem join_eq_some {tasks tasks' : JoinSet Job Result} {i : ℕ} {outcome : Except JoinError Result}
    (h : tasks.join i = some (outcome, tasks')) : tasks' = tasks.set i none ∧
      ((∃ result, tasks.get i = some (.finished result) ∧ outcome = .ok result) ∨
        tasks.get i = some .aborted) := by
  rw [join] at h
  split at h
  · next result hget =>
    cases h
    exact ⟨rfl, .inl ⟨result, hget, rfl⟩⟩
  · next hget =>
    cases h
    exact ⟨rfl, .inr hget⟩
  · cases h

end JoinSet

end Containers
