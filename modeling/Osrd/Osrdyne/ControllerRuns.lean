import Osrd.Osrdyne.QueueController

/-! What the queue control loop reaches.

    A job is bound to fail the loop once it is aborted, so a key may only get a new target when its last job
    has been joined. Then every job in the set carries the target of its key, and the keys without a job
    are reported as their target says (`Synced`). -/

namespace Osrd.Osrdyne

open Containers List Function Finmap

theorem updateQueue_ok {chan : Command → Except ErrorKind Unit}
    (h : ∀ command, chan command = .ok ()) (pool : Pool) (key : Key)
    (newState : Option QueueStatus) : updateQueue pool chan key newState = .ok (key, newState) := by
  cases newState with
  | none => simp only [updateQueue, h]; rfl
  | some status => cases status <;> (simp only [updateQueue, h]; rfl)

/-! ### The jobs in the set -/

/-- The job that a task runs or has done. -/
def jobOf : Task Job (Except QueueUpdateError Job) → Option Job
  | .running job => some job
  | .finished (.ok job) => some job
  | .finished (.error _) => none
  | .aborted => none

namespace Controller

def HasJob (s : Controller) (job : Job) : Prop :=
  ∃ i task, s.jobs.get i = some task ∧ jobOf task = some job

/-- No task of the set is aborted or failed, and the handles are those of tasks in the set. -/
structure Healthy (s : Controller) : Prop where
  sound : ∀ i task, s.jobs.get i = some task → (jobOf task).isSome
  byKey : ∀ k i, s.jobsByKey k = some i → ∃ status, s.HasJob (k, status)

variable {s : Controller}

theorem hasJob_spawnJob {job job' : Job} :
    (s.spawnJob job).HasJob job' ↔ s.HasJob job' ∨ job' = job := by
  constructor
  · rintro ⟨i, task, hget, hjob⟩
    simp only [spawnJob, JoinSet.spawn, Arena.insert] at hget
    rcases eq_or_ne i s.jobs.next with rfl | hi
    · rw [update_self] at hget
      cases hget
      exact .inr (Option.some.inj hjob).symm
    · rw [update_of_ne hi] at hget
      exact .inl ⟨i, task, hget, hjob⟩
  · rintro (⟨i, task, hget, hjob⟩ | rfl)
    · refine ⟨i, task, ?_, hjob⟩
      have hi : i ≠ s.jobs.next := by
        rintro rfl
        exact nomatch s.jobs.next_unused.symm.trans hget
      exact (update_of_ne hi _ _).trans hget
    · exact ⟨s.jobs.next, .running _, update_self _ _ _, rfl⟩

theorem spawnJob_jobsByKey_of_ne {job : Job} {k : Key} (hne : k ≠ job.1) :
    (s.spawnJob job).jobsByKey k = s.jobsByKey k :=
  update_of_ne hne _ _

theorem Healthy.spawnJob (h : Healthy s) (job : Job) : Healthy (s.spawnJob job) where
  sound := fun i task hget => by
    simp only [Controller.spawnJob, JoinSet.spawn, Arena.insert] at hget
    rcases eq_or_ne i s.jobs.next with rfl | hi
    · rw [update_self] at hget
      cases hget
      rfl
    · rw [update_of_ne hi] at hget
      exact h.sound i task hget
  byKey := fun k i hk => by
    rcases eq_or_ne k job.1 with rfl | hne
    · exact ⟨job.2, hasJob_spawnJob.mpr (.inr rfl)⟩
    · rw [spawnJob_jobsByKey_of_ne hne] at hk
      obtain ⟨status, hjob⟩ := h.byKey k i hk
      exact ⟨status, hasJob_spawnJob.mpr (.inl hjob)⟩

/-- A job of the set that is not at handle `i`. -/
def HasOtherJob (s : Controller) (i : ℕ) (job : Job) : Prop :=
  ∃ j task, j ≠ i ∧ s.jobs.get j = some task ∧ jobOf task = some job

section Set

variable {s' : Controller} {i : ℕ} {task : Task Job (Except QueueUpdateError Job)}
  {entry : Option (Task Job (Except QueueUpdateError Job))} {job : Job}

theorem hasJob_iff_other (hget : s.jobs.get i = some task) :
    s.HasJob job ↔ s.HasOtherJob i job ∨ jobOf task = some job := by
  constructor
  · rintro ⟨j, task', hj, hjob⟩
    rcases eq_or_ne j i with rfl | hne
    · cases hget.symm.trans hj
      exact .inr hjob
    · exact .inl ⟨j, task', hne, hj, hjob⟩
  · rintro (⟨j, task', -, hj, hjob⟩ | hjob)
    · exact ⟨j, task', hj, hjob⟩
    · exact ⟨i, task, hget, hjob⟩

theorem hasJob_set (hget : s.jobs.get i = some task) (hjobs : s'.jobs = s.jobs.set i entry) :
    s'.HasJob job ↔ s.HasOtherJob i job ∨ entry.bind jobOf = some job := by
  have hset := hjobs ▸ Arena.get_set (x := entry) (Option.isSome_of_mem hget)
  constructor
  · rintro ⟨j, task', hj, hjob⟩
    rw [hset] at hj
    rcases eq_or_ne j i with rfl | hne
    · rw [update_self] at hj
      exact .inr (by rw [hj]; exact hjob)
    · rw [update_of_ne hne] at hj
      exact .inl ⟨j, task', hne, hj, hjob⟩
  · rintro (⟨j, task', hne, hj, hjob⟩ | hjob)
    · exact ⟨j, task', by rw [hset, update_of_ne hne, hj], hjob⟩
    · obtain ⟨task', rfl, hjob⟩ := Option.bind_eq_some_iff.mp hjob
      exact ⟨i, task', by rw [hset, update_self], hjob⟩

theorem sound_set (h : Healthy s) (hget : s.jobs.get i = some task)
    (hjobs : s'.jobs = s.jobs.set i entry) (hentry : ∀ t ∈ entry, (jobOf t).isSome) :
    ∀ j t, s'.jobs.get j = some t → (jobOf t).isSome := by
  intro j t hj
  rw [hjobs, Arena.get_set (Option.isSome_of_mem hget)] at hj
  rcases eq_or_ne j i with rfl | hne
  · rw [update_self] at hj
    exact hentry t hj
  · rw [update_of_ne hne] at hj
    exact h.sound j t hj

end Set

/-- `s'` is `s` with some jobs spawned. -/
structure Spawned (s s' : Controller) (jobs : List Job) : Prop where
  healthy : Healthy s → Healthy s'
  hasJob : ∀ job, s'.HasJob job ↔ s.HasJob job ∨ job ∈ jobs
  target : s'.target = s.target
  state : s'.state = s.state

theorem foldl_spawnJob (jobs : List Job) (s : Controller) : Spawned s (jobs.foldl spawnJob s) jobs := by
  induction jobs generalizing s with
  | nil => exact ⟨id, by simp, rfl, rfl⟩
  | cons job jobs ih =>
    have hrest := ih (s.spawnJob job)
    refine ⟨fun h => hrest.healthy (h.spawnJob job), fun job' => ?_, hrest.target, hrest.state⟩
    rw [foldl_cons, hrest.hasJob, hasJob_spawnJob, mem_cons, or_assoc]

/-- Changes of keys without a handle only spawn jobs. -/
theorem foldl_applyChange (changes : List Job) (s : Controller)
    (hkeys : (changes.map Prod.fst).Nodup) (hfree : ∀ c ∈ changes, s.jobsByKey c.1 = none) :
    changes.foldl applyChange s = changes.foldl spawnJob s := by
  induction changes generalizing s with
  | nil => rfl
  | cons change changes ih =>
    obtain ⟨hnotin, hkeys⟩ := nodup_cons.mp hkeys
    have happly : s.applyChange change = s.spawnJob change := by
      rw [applyChange, hfree change mem_cons_self]
    rw [foldl_cons, foldl_cons, happly]
    refine ih _ hkeys fun c hc => ?_
    have hne : c.1 ≠ change.1 := fun heq => hnotin (heq ▸ mem_map_of_mem hc)
    rw [spawnJob_jobsByKey_of_ne hne]
    exact hfree c (mem_cons_of_mem change hc)

/-! ### The invariant -/

/-- Every job carries the target of its key, and the other keys are reported as their target says. -/
structure Synced (s : Controller) : Prop where
  healthy : Healthy s
  jobs : ∀ job, s.HasJob job → job.2 = s.target.queues.lookup job.1
  done : ∀ k, (∀ status, ¬ s.HasJob (k, status)) →
    s.state.queues.lookup k = s.target.queues.lookup k

/-- A turn of the loop over the initial keys deletes the key when it has no target. -/
theorem startKey_spec (h : Healthy s) (queue : Key) :
    Healthy (s.startKey queue) ∧ (s.startKey queue).target = s.target ∧
      (∀ job, (s.startKey queue).HasJob job ↔
        s.HasJob job ∨ (queue ∉ s.target.queues ∧ job = (queue, none))) ∧
      ∀ k, k ≠ queue → (s.startKey queue).state.queues.lookup k = s.state.queues.lookup k := by
  -- the reported state plays no part in the jobs
  let s₁ : Controller := { s with state := { s.state with queues := s.state.queues.insert queue .Unbound } }
  have h₁ : Healthy s₁ := ⟨h.sound, h.byKey⟩
  have hlookup : ∀ k, k ≠ queue → s₁.state.queues.lookup k = s.state.queues.lookup k :=
    fun k hk => lookup_insert_of_ne _ hk
  by_cases hmem : queue ∈ s.target.queues
  · have hstart : s.startKey queue = s₁ := if_pos hmem
    rw [hstart]
    exact ⟨h₁, rfl, fun job => by simp [hmem]; rfl, hlookup⟩
  · have hstart : s.startKey queue = s₁.spawnJob (queue, none) := if_neg hmem
    rw [hstart]
    refine ⟨h₁.spawnJob _, rfl, fun job => ?_, hlookup⟩
    rw [hasJob_spawnJob, and_iff_right hmem]
    rfl

/-- The jobs of the initial keys delete those that have no target. -/
theorem foldl_startKey (initialKeys : List Key) (s : Controller) (h : Healthy s) :
    Healthy (initialKeys.foldl startKey s) ∧ (initialKeys.foldl startKey s).target = s.target ∧
      (∀ job, (initialKeys.foldl startKey s).HasJob job ↔
        s.HasJob job ∨ (job.1 ∈ initialKeys ∧ job.1 ∉ s.target.queues ∧ job.2 = none)) ∧
      ∀ k, k ∉ initialKeys →
        (initialKeys.foldl startKey s).state.queues.lookup k = s.state.queues.lookup k := by
  induction initialKeys generalizing s with
  | nil => exact ⟨h, rfl, by simp, fun _ _ => rfl⟩
  | cons queue initialKeys ih =>
    obtain ⟨h₁, htarget, hjobs, hlookup⟩ := startKey_spec h queue
    obtain ⟨h', htarget', hjobs', hlookup'⟩ := ih (s.startKey queue) h₁
    refine ⟨h', htarget'.trans htarget, fun job => ?_, fun k hk => ?_⟩
    · obtain ⟨k, status⟩ := job
      rw [foldl_cons, hjobs', hjobs, htarget, mem_cons, Prod.mk.injEq]
      constructor
      · rintro ((hjob | ⟨hmem, rfl, rfl⟩) | ⟨hin, hmem, hnone⟩)
        · exact .inl hjob
        · exact .inr ⟨.inl rfl, hmem, rfl⟩
        · exact .inr ⟨.inr hin, hmem, hnone⟩
      · rintro (hjob | ⟨rfl | hin, hmem, hnone⟩)
        · exact .inl (.inl hjob)
        · exact .inl (.inr ⟨hmem, rfl, hnone⟩)
        · exact .inr ⟨hin, hmem, hnone⟩
    · obtain ⟨hne, hnotin⟩ := not_or.mp (mt mem_cons.mpr hk)
      rw [foldl_cons, hlookup' k hnotin, hlookup k hne]

theorem start_synced (handles : Handles) (target : TargetUpdate) (initialKeys : List Key) :
    Synced (start handles target initialKeys) := by
  obtain ⟨h₁, htarget, hjobs, hlookup⟩ := foldl_startKey initialKeys
    ⟨.empty handles, fun _ => none, target, ⟨target.generation, ∅⟩⟩
    ⟨fun _ _ hget => (nomatch hget), fun _ _ hk => (nomatch hk)⟩
  set s₁ := initialKeys.foldl startKey
    ⟨.empty handles, fun _ => none, target, ⟨target.generation, ∅⟩⟩ with hs₁
  have hstart : start handles target initialKeys =
      (target.queues.iter.map fun e => (e.1, some e.2)).foldl spawnJob s₁ := by
    rw [foldl_map]
    rfl
  have hspawned := foldl_spawnJob (target.queues.iter.map fun e => (e.1, some e.2)) s₁
  rw [← hstart] at hspawned
  have hmem : ∀ k status, (k, status) ∈ (target.queues.iter.map fun e => (e.1, some e.2)) ↔
      ∃ v, target.queues.lookup k = some v ∧ status = some v := by
    intro k status
    simp only [mem_map, Prod.exists, OrdMap.mem_iter, Prod.mk.injEq]
    constructor
    · rintro ⟨_, v, hv, rfl, rfl⟩
      exact ⟨v, hv, rfl⟩
    · rintro ⟨v, hv, rfl⟩
      exact ⟨k, v, hv, rfl, rfl⟩
  have htarget' : (start handles target initialKeys).target = target := hspawned.target.trans htarget
  refine ⟨hspawned.healthy h₁, ?_, ?_⟩
  · rintro ⟨k, status⟩ hjob
    rw [hspawned.hasJob, hjobs, hmem] at hjob
    rw [htarget']
    rcases hjob with (⟨i, task, hget, -⟩ | ⟨-, hmem, hnone⟩) | ⟨v, hv, rfl⟩
    · exact nomatch hget
    · exact hnone.trans (lookup_eq_none.mpr hmem).symm
    · exact hv.symm
  · intro k hk
    have hnone : target.queues.lookup k = none := by
      cases hv : target.queues.lookup k with
      | none => rfl
      | some v =>
        exact absurd ((hspawned.hasJob _).mpr (.inr ((hmem k _).mpr ⟨v, hv, rfl⟩))) (hk (some v))
    have hnotin : k ∉ initialKeys := fun hin =>
      hk none ((hspawned.hasJob _).mpr (.inl ((hjobs _).mpr
        (.inr ⟨hin, lookup_eq_none.mp hnone, rfl⟩))))
    rw [htarget', hnone, hspawned.state, hlookup k hnotin]
    rfl

/-! ### Events -/

/-- The keys that get a new target have no job in the set. -/
def NoJobInFlight (s : Controller) (newTarget : TargetUpdate) : Prop :=
  ∀ k, s.target.queues.lookup k ≠ newTarget.queues.lookup k → ∀ status, ¬ s.HasJob (k, status)

theorem targetChanged_synced (differences : Diff Key QueueStatus) (h : Synced s)
    {newTarget : TargetUpdate} (hfree : NoJobInFlight s newTarget) :
    Synced (s.targetChanged differences newTarget) := by
  set changes := (differences.diff s.target.queues newTarget.queues).map DiffItem.change with hchanges
  have hunused : ∀ c ∈ changes, s.jobsByKey c.1 = none := by
    intro c hc
    have hne := (differences.mem_change.mp hc).1
    cases hk : s.jobsByKey c.1 with
    | none => rfl
    | some i =>
      obtain ⟨status, hjob⟩ := h.healthy.byKey c.1 i hk
      exact absurd hjob (hfree c.1 hne status)
  have hspawned := foldl_spawnJob changes s
  rw [← foldl_applyChange changes s (differences.nodup _ _) hunused] at hspawned
  set s₁ := changes.foldl applyChange s
  have hjobs : ∀ job, (s.targetChanged differences newTarget).HasJob job ↔ s.HasJob job ∨ job ∈ changes :=
    hspawned.hasJob
  have hhealthy : Healthy s₁ := hspawned.healthy h.healthy
  refine ⟨⟨hhealthy.sound, hhealthy.byKey⟩, ?_, ?_⟩
  · rintro ⟨k, status⟩ hjob
    rcases (hjobs _).mp hjob with hold | hnew
    · have hsame : s.target.queues.lookup k = newTarget.queues.lookup k := by
        by_contra hne
        exact hfree k hne status hold
      exact (h.jobs _ hold).trans hsame
    · exact (differences.mem_change.mp hnew).2
  · intro k hk
    have hsame : s.target.queues.lookup k = newTarget.queues.lookup k := by
      by_contra hne
      exact hk _ ((hjobs (k, newTarget.queues.lookup k)).mpr
        (.inr (differences.mem_change.mpr ⟨hne, rfl⟩)))
    have hdone := h.done k fun status hjob => hk status ((hjobs _).mpr (.inl hjob))
    rw [← hspawned.state, hsame] at hdone
    exact hdone

/-- A job that ends stays in the set with its result. -/
theorem finished_synced (h : Synced s) {i : ℕ} {job : Job} (hget : s.jobs.get i = some (.running job)) :
    Synced { s with jobs := s.jobs.set i (some (.finished (.ok job))) } := by
  have hjobs : ∀ job', HasJob { s with jobs := s.jobs.set i (some (.finished (.ok job))) } job' ↔
      s.HasJob job' := fun job' => by
    rw [hasJob_iff_other hget, hasJob_set hget rfl]
    rfl
  refine ⟨⟨sound_set h.healthy hget rfl ?_, fun k j hk => ?_⟩, fun job' hjob => ?_, fun k hk => ?_⟩
  · rintro task ⟨⟩
    rfl
  · obtain ⟨status, hjob⟩ := h.healthy.byKey k j hk
    exact ⟨status, (hjobs _).mpr hjob⟩
  · exact h.jobs job' ((hjobs job').mp hjob)
  · exact h.done k fun status hjob => hk status ((hjobs _).mpr hjob)

/-- What a completed job reports of its key. -/
theorem lookup_completed (queues : QueueStateMap) (job : Job) (k : Key) : (match job.2 with
      | some newStatus => queues.insert job.1 newStatus
      | none => queues.erase job.1).lookup k =
    if k = job.1 then job.2 else queues.lookup k := by
  obtain ⟨key, status⟩ := job
  rcases eq_or_ne k key with rfl | hne
  · rw [if_pos rfl]
    cases status with
    | none => exact lookup_erase k queues
    | some status => exact lookup_insert queues
  · rw [if_neg hne]
    cases status with
    | none => exact lookup_erase_ne hne
    | some status => exact lookup_insert_of_ne queues hne

theorem joined_synced (h : Synced s) {s' : Controller} {i : ℕ} {job : Job}
    (hget : s.jobs.get i = some (.finished (.ok job))) (hjobs : s'.jobs = s.jobs.set i none)
    (hbyKey : s'.jobsByKey = update s.jobsByKey job.1 none) (htarget : s'.target = s.target)
    (hlookup : ∀ k, s'.state.queues.lookup k =
      if k = job.1 then job.2 else s.state.queues.lookup k) : Synced s' := by
  have hdrop : ∀ job', s'.HasJob job' → s.HasJob job' := fun job' hjob => by
    rw [hasJob_set hget hjobs] at hjob
    rw [hasJob_iff_other hget]
    exact hjob.imp_right fun hnone => (nomatch hnone)
  have hkeep : ∀ k status, k ≠ job.1 → s.HasJob (k, status) → s'.HasJob (k, status) := by
    intro k status hne hjob
    rw [hasJob_iff_other hget] at hjob
    rw [hasJob_set hget hjobs]
    refine hjob.imp_right fun hsome => ?_
    cases hsome
    exact absurd rfl hne
  refine ⟨⟨sound_set h.healthy hget hjobs fun _ hnone => (nomatch hnone), fun k j hk => ?_⟩,
    fun job' hjob => ?_, fun k hk => ?_⟩
  · rw [hbyKey] at hk
    rcases eq_or_ne k job.1 with rfl | hne
    · rw [update_self] at hk
      cases hk
    · rw [update_of_ne hne] at hk
      obtain ⟨status, hjob⟩ := h.healthy.byKey k j hk
      exact ⟨status, hkeep k status hne hjob⟩
  · rw [htarget]
    exact h.jobs job' (hdrop job' hjob)
  · rw [hlookup, htarget]
    split
    · next heq =>
      subst heq
      exact h.jobs job ⟨i, _, hget, rfl⟩
    · next hne => exact h.done k fun status hjob => hk status (hkeep k status hne hjob)

/-- A job in the set ends well, and its key is then reported as its target says. -/
theorem jobCompleted_synced (h : Synced s) {i : ℕ}
    {completion : Except JoinError (Except QueueUpdateError Job)}
    {jobs : JoinSet Job (Except QueueUpdateError Job)} (hjoin : s.jobs.join i = some (completion, jobs)) :
    ∃ s', jobCompleted { s with jobs := jobs } completion = .running s' ∧ Synced s' := by
  obtain ⟨rfl, ⟨result, hget, rfl⟩ | hget⟩ := JoinSet.join_eq_some hjoin
  · cases result with
    | error e => exact nomatch h.healthy.sound i _ hget
    | ok job => exact ⟨_, rfl, joined_synced h hget rfl rfl rfl (lookup_completed _ _)⟩
  · exact nomatch h.healthy.sound i _ hget

end Controller

/-! ### Runs -/

variable {pool : Pool} {control : Control} (hr : Run pool Controller.NoJobInFlight control)

include hr in
theorem Run.synced : ∃ s, (control = .running s ∨ control = .stopped s) ∧ s.Synced := by
  induction hr with
  | start handles target keys => exact ⟨_, .inl rfl, Controller.start_synced handles target keys⟩
  | finished hr hget hchan ih =>
    obtain ⟨s, hs | hs, h⟩ := ih
    · cases hs
      rw [updateQueue_ok hchan]
      exact ⟨_, .inl rfl, Controller.finished_synced h hget⟩
    · cases hs
  | jobCompleted hr hjoin ih =>
    obtain ⟨s, hs | hs, h⟩ := ih
    · cases hs
      obtain ⟨s', hs', h'⟩ := Controller.jobCompleted_synced h hjoin
      exact ⟨s', .inl hs', h'⟩
    · cases hs
  | targetChanged differences hr hfree ih =>
    obtain ⟨s, hs | hs, h⟩ := ih
    · cases hs
      exact ⟨_, .inl rfl, Controller.targetChanged_synced differences h hfree⟩
    · cases hs
  | senderDropped hr ih =>
    obtain ⟨s, hs | hs, h⟩ := ih
    · cases hs
      exact ⟨_, .inr rfl, h⟩
    · cases hs

include hr in
/-- In every run in which a key gets a new target only when its last job has been joined, the loop does
    not panic, and the reported queues are the target queues whenever no job is in the set. -/
theorem run_reports_target : ∃ s, (control = .running s ∨ control = .stopped s) ∧
      ((∀ i, s.jobs.get i = none) → s.state.queues = s.target.queues) := by
  obtain ⟨s, hs, h⟩ := hr.synced
  refine ⟨s, hs, fun hnone => ext_lookup fun k => h.done k ?_⟩
  rintro status ⟨i, task, hget, -⟩
  exact nomatch (hnone i).symm.trans hget

/-- A queue that is not in the target gets a deletion job at startup. -/
def deleting (key : Key) : Controller :=
  Controller.spawnJob ⟨.empty (.refl ℕ), fun _ => none, ⟨0, ∅⟩, ⟨0, insert key .Unbound ∅⟩⟩
    (key, none)

theorem start_eq_deleting (key : Key) : Controller.start (.refl ℕ) ⟨0, ∅⟩ [key] = deleting key := by
  have hiter : (∅ : QueueStateMap).iter = [] := by simp [OrdMap.iter]
  have hkey : key ∉ (∅ : QueueStateMap) := notMem_empty
  simp only [Controller.start, hiter, foldl_cons, foldl_nil, Controller.startKey, if_neg hkey, deleting]

theorem run_reports_deleted : ∃ s, Run ⟨"xchg", "req-"⟩ Controller.NoJobInFlight (.running s) ∧
    s.state.queues = s.target.queues := by
  have hstart : Run ⟨"xchg", "req-"⟩ Controller.NoJobInFlight (.running (deleting ⟨"a"⟩)) :=
    start_eq_deleting ⟨"a"⟩ ▸ .start _ ⟨0, ∅⟩ [⟨"a"⟩]
  have hfinished := hstart.finished (i := 0) rfl (fun _ => rfl : ∀ _, Except.ok () = Except.ok ())
  have hjoined := hfinished.jobCompleted (i := 0) rfl
  obtain ⟨s, hs | hs, hreports⟩ := run_reports_target hjoined
  · cases hs
    refine ⟨_, hjoined, hreports fun i => ?_⟩
    cases i <;> rfl
  · cases hs

/-- A queue whose target changes while its job is running: the job is aborted and the loop panics when it
    joins it. -/
theorem run_panics_after_abort : Run ⟨"xchg", "req-"⟩ (fun _ _ => True) .panicked := by
  have hstart : Run ⟨"xchg", "req-"⟩ (fun _ _ => True) (.running (deleting ⟨"a"⟩)) :=
    start_eq_deleting ⟨"a"⟩ ▸ .start _ ⟨0, ∅⟩ [⟨"a"⟩]
  have hdiff : (∅ : QueueStateMap).sortedDiff (singleton ⟨"a"⟩ .Active) = [.add ⟨"a"⟩ .Active] := by
    simp [OrdMap.sortedDiff, OrdMap.diffItem]
  have htarget : Run ⟨"xchg", "req-"⟩ (fun _ _ => True)
      (.running ((deleting ⟨"a"⟩).targetChanged .sorted ⟨1, singleton ⟨"a"⟩ .Active⟩)) :=
    hstart.targetChanged .sorted trivial
  have hjobs := congrArg (fun diff : List (DiffItem Key QueueStatus) =>
    ((diff.map DiffItem.change).foldl Controller.applyChange (deleting ⟨"a"⟩)).jobs.join 0) hdiff
  exact htarget.jobCompleted (i := 0) (hjobs.trans rfl)

end Osrd.Osrdyne
