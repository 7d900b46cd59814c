import Osrd.Timetable.Simulation

/-! Model of the blocks that trains occupy on a path (`editoast/src/views/timetable/occupancy_blocks.rs`):
    the signal updates that the core computes from the simulation of a train, kept in a cache that all the
    calls share.

    The calls read and write the cache while others run, and the cache may lose entries: a state is the cache
    with the entries that calls have still to write. The key of an entry covers the infra, the path and two
    of the three parts of a request. Two trains that differ only in the third, the time at which their
    simulation ends, get the updates of the one that was asked first. -/

namespace Osrd.Timetable.Occupancy

open Simulation List HashTable Function
open Prod (mk.injEq)

/-! ### Details of the trains -/

structure TrainBlockOccupancyDetails where
  signalCriticalPositions : List SignalCriticalPosition
  zoneUpdates : List ZoneUpdate
  simulationEndTime : ℕ

/-- A train that does not respect its times has no details. -/
def blockOccupancyDetails (trainSchedule : TrainScheduleLike) :
    Response → Option (Option TrainBlockOccupancyDetails)
  | .Success sim => do
      let respectTimes ← pathItemRespectTimes sim.finalOutput.reportTrain.pathItemTimes trainSchedule
      if respectTimes.all id then
        let simulationEndTime ← sim.finalOutput.reportTrain.times.getLast?
        return some ⟨sim.finalOutput.signalCriticalPositions, sim.finalOutput.zoneUpdates, simulationEndTime⟩
      else return none
  | _ => some none

def extractBlockOccupancyDetails (simulations : List Response)
    (trainSchedules : List TrainScheduleLike) : Option (List (Option TrainBlockOccupancyDetails)) :=
  if trainSchedules.length = simulations.length then
    (simulations.zip trainSchedules).mapM fun p => blockOccupancyDetails p.2 p.1
  else none

/-- What is hashed: the end of the simulation is not. -/
abbrev HashInput := List SignalCriticalPosition × List ZoneUpdate × TrainPath

def computeOccupancyBlockHashWithVersioning (hash : HashInput → ℕ)
    (details : TrainBlockOccupancyDetails) (infraId infraVersion : ℤ) (path : TrainPath)
    (appVersion : Option String) : String :=
  versionedKey "occupancy_block_" (appVersion.getD "") infraId infraVersion
    (hash (details.signalCriticalPositions, details.zoneUpdates, path))

/-! ### Requests to the core -/

structure SignalUpdate where
  signalId : String
  signalingSystem : String
  timeStart : ℕ
  timeEnd : ℕ
  positionStart : ℕ
  positionEnd : ℕ
  color : ℤ
  blinking : Bool
  aspectLabel : String

abbrev OccupancyBlocks := List SignalUpdate

structure SignalUpdatesRequest where
  infra : ℤ
  expectedVersion : ℤ
  path : TrainPath
  trainSimulations : List TrainBlockOccupancyDetails

/-- What the core answers for one train. -/
abbrev Project := Infra → TrainPath → TrainBlockOccupancyDetails → OccupancyBlocks

/-- A core that answers for each train of a request, in order, when it answers. -/
structure Core (project : Project) where
  fetch : SignalUpdatesRequest → Option (List OccupancyBlocks)
  sound : ∀ request answer, fetch request = some answer → answer =
    request.trainSimulations.map (project ⟨request.infra, request.expectedVersion⟩ request.path)

inductive Failure
  | panic
  | core

def computeBatchSignalUpdates {project : Project} (core : Core project) (infra : Infra)
    (path : TrainPath) (trainsDetails : List TrainBlockOccupancyDetails) :
    Except Failure (List OccupancyBlocks) :=
  if trainsDetails.isEmpty then .ok []
  else
    match core.fetch ⟨infra.id, infra.version, path, trainsDetails⟩ with
    | some response => .ok response
    | none => .error .core

/-! ### Calls -/

/-- The arguments of a call, with the core and the order of its hash map. -/
structure Call (project : Project) where
  core : Core project
  visit : Visit (Bucket String TrainBlockOccupancyDetails)
  appVersion : Option String
  infra : Infra
  path : TrainPath
  simulations : List Response
  trainSchedules : List TrainScheduleLike

variable {hash : HashInput → ℕ} {trains : List (Option TrainBlockOccupancyDetails)}

variable {details details' : TrainBlockOccupancyDetails}

section Calls

variable {project : Project}

namespace Call

def key (call : Call project) (hash : HashInput → ℕ) (details : TrainBlockOccupancyDetails) : String :=
  computeOccupancyBlockHashWithVersioning hash details call.infra.id call.infra.version call.path
    call.appVersion

/-- The keys with the indices of their trains and the details of the first of them. -/
def trainHashes (call : Call project) (hash : HashInput → ℕ)
    (trainsDetails : List (Option TrainBlockOccupancyDetails)) :
    List (Bucket String TrainBlockOccupancyDetails) :=
  call.visit.order (groups (trainsDetails.map (Option.map fun details =>
    (call.key hash details, details))))

end Call

/-- The blocks of the trains, and the entries to write in the cache. -/
def computeOccupancyBlocks (hash : HashInput → ℕ) (cached : String → Option OccupancyBlocks)
    (call : Call project) : Except Failure (List OccupancyBlocks × List (String × OccupancyBlocks)) :=
  match extractBlockOccupancyDetails call.simulations call.trainSchedules with
  | none => .error .panic
  | some trainsDetails => do
      let hashes := call.trainHashes hash trainsDetails
      let hits := hashes.filterMap fun b => (cached b.key).map fun blocks => (b.indexes, blocks)
      let requests := hashes.filter fun b => (cached b.key).isNone
      let signalUpdates ← computeBatchSignalUpdates call.core call.infra call.path
        (requests.map Bucket.first)
      let occupancyBlocks := requests.zip signalUpdates
      let result := fillAll (List.replicate call.trainSchedules.length []) hits
      return (fillAll result (occupancyBlocks.map fun p => (p.1.indexes, p.2)),
        occupancyBlocks.map fun p => (p.1.key, p.2))

/-- The updates that the core gives for a train, from its own details. -/
def ownUpdates (call : Call project) (details : Option TrainBlockOccupancyDetails) : OccupancyBlocks :=
  match details with
  | none => []
  | some details => project call.infra call.path details

/-! ### Answers of a call -/

theorem computeBatchSignalUpdates_cases (core : Core project) (infra : Infra) (path : TrainPath)
    (trains : List TrainBlockOccupancyDetails) :
    computeBatchSignalUpdates core infra path trains = .error .core ∨
      computeBatchSignalUpdates core infra path trains = .ok (trains.map (project infra path)) := by
  rw [computeBatchSignalUpdates]
  split
  · next hempty =>
    rw [isEmpty_iff.mp hempty]
    exact .inr rfl
  · cases hfetch : core.fetch ⟨infra.id, infra.version, path, trains⟩ with
    | none => exact .inl rfl
    | some response => exact .inr (congrArg Except.ok (core.sound _ _ hfetch))

/-- The writes of the cached blocks, then those of the blocks of the core. -/
def writes (hash : HashInput → ℕ) (cached : String → Option OccupancyBlocks) (call : Call project)
    (trains : List (Option TrainBlockOccupancyDetails)) : List (List ℕ × OccupancyBlocks) :=
  ((call.trainHashes hash trains).filterMap fun b =>
      (cached b.key).map fun blocks => (b.indexes, blocks)) ++
    ((call.trainHashes hash trains).filter fun b => (cached b.key).isNone).map fun b =>
      (b.indexes, project call.infra call.path b.first)

/-- The entries that a call writes. -/
def stored (hash : HashInput → ℕ) (cached : String → Option OccupancyBlocks) (call : Call project)
    (trains : List (Option TrainBlockOccupancyDetails)) : List (String × OccupancyBlocks) :=
  ((call.trainHashes hash trains).filter fun b => (cached b.key).isNone).map fun b =>
    (b.key, project call.infra call.path b.first)

/-- A call with details fails with the core, or gives what the writes say. -/
theorem computeOccupancyBlocks_cases {cached : String → Option OccupancyBlocks} {call : Call project}
    (h : extractBlockOccupancyDetails call.simulations call.trainSchedules = some trains) :
    computeOccupancyBlocks hash cached call = .error .core ∨ computeOccupancyBlocks hash cached call =
        .ok (fillAll (replicate call.trainSchedules.length [])
          (writes hash cached call trains), stored hash cached call trains) := by
  have hzip : ∀ bs : List (Bucket String TrainBlockOccupancyDetails),
      bs.zip ((bs.map Bucket.first).map (project call.infra call.path)) =
        bs.map fun b => (b, project call.infra call.path b.first) := by
    intro bs
    induction bs with
    | nil => rfl
    | cons b bs ih => simp only [map_cons, zip_cons_cons, ih]
  simp only [computeOccupancyBlocks, h]
  rcases computeBatchSignalUpdates_cases call.core call.infra call.path
    (((call.trainHashes hash trains).filter fun b => (cached b.key).isNone).map Bucket.first)
    with hcore | hcore
  · left
    rw [hcore]
    rfl
  · right
    rw [hcore]
    simp only [bind, Except.bind, hzip]
    rw [map_map, map_map, fillAll, fillAll, ← foldl_append]
    rfl

theorem length_of_extract {simulations : List Response} {trainSchedules : List TrainScheduleLike}
    (h : extractBlockOccupancyDetails simulations trainSchedules = some trains) :
    trains.length = trainSchedules.length := by
  rw [extractBlockOccupancyDetails] at h
  split at h
  · next hlen => rw [Partial.length_of_mapM h, length_zip, hlen, min_self]
  · cases h

/-! ### Entries that are right for the trains that are served -/

/-- The trains, with the infra and the path, that calls ask for. -/
abbrev Served := Infra → TrainPath → TrainBlockOccupancyDetails → Prop

/-- The entry has the blocks of every served train with its key. -/
def Sound (hash : HashInput → ℕ) (project : Project) (served : Served) (key : String)
    (blocks : OccupancyBlocks) : Prop :=
  ∀ appVersion infra path details, served infra path details →
    computeOccupancyBlockHashWithVersioning hash details infra.id infra.version path appVersion = key →
    blocks = project infra path details

/-- The details that are hashed determine the end of the simulation. -/
def EndTimesDetermined (served : Served) : Prop :=
  ∀ infra path details details', served infra path details → served infra path details' →
    details.signalCriticalPositions = details'.signalCriticalPositions →
    details.zoneUpdates = details'.zoneUpdates →
    details.simulationEndTime = details'.simulationEndTime

/-- The trains of the call are served. -/
def Call.From (served : Served) (call : Call project) : Prop :=
  ∀ trains, extractBlockOccupancyDetails call.simulations call.trainSchedules =
    some trains → ∀ details, some details ∈ trains →
    served call.infra call.path details

/-- The key determines the whole request for a served train. -/
theorem EndTimesDetermined.of_key {served : Served} (h : EndTimesDetermined served)
    (hhash : Function.Injective hash) {infra infra' : Infra} {path path' : TrainPath}
    {appVersion appVersion' : Option String}
    (hserved : served infra path details) (hserved' : served infra' path' details')
    (hkey : computeOccupancyBlockHashWithVersioning hash details infra.id infra.version path appVersion =
      computeOccupancyBlockHashWithVersioning hash details' infra'.id infra'.version path' appVersion') :
    infra = infra' ∧ path = path' ∧ details = details' := by
  obtain ⟨-, hid, hversion, hinput⟩ := versionedKey_inj hkey
  have hinput := hhash hinput
  simp only [mk.injEq] at hinput
  obtain ⟨hpositions, hzones, rfl⟩ := hinput
  have hinfra : infra = infra' := by
    cases infra
    cases infra'
    simp_all
  subst hinfra
  have htime := h infra path details details' hserved hserved' hpositions hzones
  refine ⟨rfl, rfl, ?_⟩
  cases details
  cases details'
  simp_all

section Own

variable {hash : HashInput → ℕ} {served : Served} {cached : String → Option OccupancyBlocks}
  {call : Call project} {trains : List (Option TrainBlockOccupancyDetails)}

/-- The members of the groups are the trains with details. -/
theorem getElem?_members {i : ℕ} {k : String} {details : TrainBlockOccupancyDetails} :
    (trains.map (Option.map fun details => (call.key hash details, details)))[i]? =
      some (some (k, details)) ↔ trains[i]? = some (some details) ∧ call.key hash details = k := by
  rw [getElem?_map]
  cases trains[i]? with
  | none => simp
  | some d =>
    cases d with
    | none => simp
    | some d =>
      simp only [Option.map_some, Option.some.injEq, mk.injEq]
      constructor
      · rintro ⟨hk, rfl⟩
        exact ⟨rfl, hk⟩
      · rintro ⟨rfl, hk⟩
        exact ⟨hk, rfl⟩

/-- The trains of a group all have the details of the first one. -/
theorem bucket_details (hhash : Function.Injective hash) (htimes : EndTimesDetermined served)
    (hserved : ∀ details, some details ∈ trains → served call.infra call.path details)
    {b : Bucket String TrainBlockOccupancyDetails} (hb : b ∈ call.trainHashes hash trains) :
    served call.infra call.path b.first ∧ call.key hash b.first = b.key ∧
      ∀ i ∈ b.indexes, trains[i]? = some (some b.first) := by
  have hgrouped := groups_grouped
    (trains.map (Option.map fun details => (call.key hash details, details)))
  rw [Call.trainHashes, call.visit.mem_order] at hb
  obtain ⟨j, -, hj⟩ := hgrouped.first b hb
  obtain ⟨hfirst, hkey⟩ := getElem?_members.mp hj
  have hservedFirst := hserved _ (mem_of_getElem? hfirst)
  refine ⟨hservedFirst, hkey, ?_⟩
  intro i hi
  obtain ⟨details, hdetails⟩ := hgrouped.sound b hb i hi
  obtain ⟨hget, hkey'⟩ := getElem?_members.mp hdetails
  obtain ⟨-, -, heq⟩ := htimes.of_key hhash (hserved _ (mem_of_getElem? hget)) hservedFirst
    (hkey'.trans hkey.symm)
  rw [hget, heq]

variable (hhash : Function.Injective hash) (htimes : EndTimesDetermined served)
  (hcache : ∀ k blocks, cached k = some blocks → Sound hash project served k blocks)

variable (hserved : ∀ details, some details ∈ trains → served call.infra call.path details)

include hserved hhash htimes hcache in
/-- What is written at the index of a train: its own updates. -/
theorem writes_own {w : List ℕ × OccupancyBlocks} (hw : w ∈ writes hash cached call trains) {i : ℕ}
    (hi : i ∈ w.1) : ∃ details, trains[i]? = some (some details) ∧
      w.2 = project call.infra call.path details := by
  rcases mem_append.mp hw with hw | hw
  · obtain ⟨b, hb, hblocks⟩ := mem_filterMap.mp hw
    obtain ⟨blocks, hcached, rfl⟩ := Option.map_eq_some_iff.mp hblocks
    obtain ⟨hfirst, hkey, hall⟩ := bucket_details hhash htimes hserved hb
    exact ⟨b.first, hall i hi, hcache _ _ hcached _ _ _ _ hfirst hkey⟩
  · obtain ⟨b, hb, rfl⟩ := mem_map.mp hw
    obtain ⟨-, -, hall⟩ := bucket_details hhash htimes hserved (mem_of_mem_filter hb)
    exact ⟨b.first, hall i hi, rfl⟩

/-- Every train with details has its blocks written. -/
theorem exists_write (hash : HashInput → ℕ) (cached : String → Option OccupancyBlocks)
    (call : Call project) {i : ℕ} {details : TrainBlockOccupancyDetails}
    (h : trains[i]? = some (some details)) : ∃ w ∈ writes hash cached call trains, i ∈ w.1 := by
  have hgrouped := groups_grouped
    (trains.map (Option.map fun details => (call.key hash details, details)))
  obtain ⟨b, hb, -, hi⟩ := hgrouped.complete i _ _ (getElem?_members.mpr ⟨h, rfl⟩)
  rw [← call.visit.mem_order] at hb
  cases hcached : cached b.key with
  | some blocks =>
    refine ⟨(b.indexes, blocks), mem_append_left _ ?_, hi⟩
    exact mem_filterMap.mpr ⟨b, hb, by rw [hcached]; rfl⟩
  | none =>
    refine ⟨_, mem_append_right _ (mem_map_of_mem ?_), hi⟩
    exact mem_filter.mpr ⟨hb, by rw [hcached]; rfl⟩

include hserved hhash htimes hcache in
theorem fillAll_writes : fillAll (replicate trains.length []) (writes hash cached call trains) =
      trains.map (ownUpdates call) := by
  apply ext_getElem?
  intro i
  rw [getElem?_map]
  cases hi : trains[i]? with
  | none =>
    apply getElem?_eq_none
    rw [length_fillAll, length_replicate]
    exact getElem?_eq_none_iff.mp hi
  | some d =>
    have hlt := (List.getElem?_eq_some_iff.mp hi).1
    cases d with
    | none =>
      rw [getElem?_fillAll_of_notMem]
      · simp [hlt, ownUpdates]
      · intro w hw hmem
        obtain ⟨details, hget, -⟩ := writes_own hhash htimes hcache hserved hw hmem
        rw [hi] at hget
        cases hget
    | some details =>
      apply getElem?_fillAll
      · rwa [length_replicate]
      · exact exists_write hash cached call hi
      · intro w hw hmem
        obtain ⟨details', hget, hvalue⟩ := writes_own hhash htimes hcache hserved hw hmem
        rw [hi] at hget
        cases hget
        exact hvalue

theorem stored_sound (hhash : Function.Injective hash) (htimes : EndTimesDetermined served)
    (hserved : ∀ details, some details ∈ trains → served call.infra call.path details) :
    ∀ e ∈ stored hash cached call trains, Sound hash project served e.1 e.2 := by
  intro e he appVersion infra path details hserve hkey
  obtain ⟨b, hb, rfl⟩ := mem_map.mp he
  obtain ⟨hfirst, hkey', -⟩ := bucket_details hhash htimes hserved (mem_of_mem_filter hb)
  obtain ⟨hinfra, hpath, hdetails⟩ := htimes.of_key hhash hserve hfirst (hkey.trans hkey'.symm)
  rw [hinfra, hpath, hdetails]

include hhash htimes hcache in
/-- A call on right entries gives each train its own updates, and writes right entries. -/
theorem computeOccupancyBlocks_own (hcall : call.From served)
    (hdetails : extractBlockOccupancyDetails call.simulations call.trainSchedules = some trains) :
    computeOccupancyBlocks hash cached call = .error .core ∨
      ∃ entries, computeOccupancyBlocks hash cached call = .ok (trains.map (ownUpdates call), entries) ∧
        ∀ e ∈ entries, Sound hash project served e.1 e.2 := by
  have hserved := hcall _ hdetails
  refine (computeOccupancyBlocks_cases hdetails).imp_right ?_
  intro hok
  refine ⟨stored hash cached call trains, ?_, stored_sound hhash htimes hserved⟩
  rw [hok, ← length_of_extract hdetails, fillAll_writes hhash htimes hcache hserved]

end Own

end Calls

/-! ### Runs -/

/-- The cache, and the entries that calls have still to write. -/
structure State where
  cache : String → Option OccupancyBlocks
  pending : List (String × OccupancyBlocks)

/-- The states that calls for served trains lead to, from an empty cache. -/
inductive Reachable (hash : HashInput → ℕ) (project : Project) (served : Served) : State → Prop
  | init : Reachable hash project served ⟨fun _ => none, []⟩
  | call {s : State} {blocks : List OccupancyBlocks} {entries : List (String × OccupancyBlocks)}
      (call : Call project) : Reachable hash project served s → call.From served →
      computeOccupancyBlocks hash s.cache call = .ok (blocks, entries) →
      Reachable hash project served ⟨s.cache, entries ++ s.pending⟩
  | write {s : State} {e : String × OccupancyBlocks} : Reachable hash project served s →
      e ∈ s.pending → Reachable hash project served ⟨update s.cache e.1 (some e.2), s.pending⟩
  | lose {s : State} (key : String) : Reachable hash project served s →
      Reachable hash project served ⟨update s.cache key none, s.pending⟩

/-- Every call for served trains that returns gives each train its own updates. -/
def GivesOwnUpdates (hash : HashInput → ℕ) (project : Project) (served : Served) : Prop :=
  ∀ s, Reachable hash project served s → ∀ call : Call project, call.From served →
    ∀ trains, extractBlockOccupancyDetails call.simulations call.trainSchedules =
      some trains →
    computeOccupancyBlocks hash s.cache call = .error .core ∨
      ∃ entries, computeOccupancyBlocks hash s.cache call =
        .ok (trains.map (ownUpdates call), entries)

/-- All the entries of the state are right. -/
structure State.Sound (hash : HashInput → ℕ) (project : Project) (served : Served) (s : State) :
    Prop where
  cache : ∀ k blocks, s.cache k = some blocks → Occupancy.Sound hash project served k blocks
  pending : ∀ e ∈ s.pending, Occupancy.Sound hash project served e.1 e.2

theorem Reachable.sound {project : Project} {served : Served} {s : State} (hhash : Function.Injective hash)
    (htimes : EndTimesDetermined served) (h : Reachable hash project served s) :
    s.Sound hash project served := by
  induction h with
  | init =>
    refine ⟨?_, ?_⟩
    · intro k blocks hk
      cases hk
    · intro e he
      cases he
  | @call s blocks entries call _ hcall hok ih =>
    refine ⟨ih.cache, ?_⟩
    intro e he
    rcases mem_append.mp he with he | he
    · cases hdetails : extractBlockOccupancyDetails call.simulations call.trainSchedules with
      | none => simp [computeOccupancyBlocks, hdetails] at hok
      | some trains =>
        rcases computeOccupancyBlocks_own hhash htimes ih.cache hcall hdetails with
          hcore | ⟨entries', hok', hsound⟩
        · rw [hok] at hcore
          cases hcore
        · rw [hok] at hok'
          cases hok'
          exact hsound e he
    · exact ih.pending e he
  | @write s e _ he ih =>
    refine ⟨?_, ih.pending⟩
    intro k blocks hk
    simp only [update_apply] at hk
    split at hk
    · next hke =>
      cases hk
      rw [hke]
      exact ih.pending e he
    · exact ih.cache k blocks hk
  | @lose s key _ ih =>
    refine ⟨?_, ih.pending⟩
    intro k blocks hk
    simp only [update_apply] at hk
    split at hk
    · cases hk
    · exact ih.cache k blocks hk

/-! ### Two trains with one key -/

/-- A train without path items or schedule. -/
def bareTrain : TrainScheduleLike where
  rollingStockName := "stock"
  path := []
  schedule := []
  margins := ⟨[], [.Percentage 0]⟩
  initialSpeed := 0
  comfort := .Standard
  constraintDistribution := .Standard
  speedLimitTag := none
  powerRestrictions := []
  options := ⟨true, true, false⟩

/-- A simulation with the details. -/
def simulationOf (details : TrainBlockOccupancyDetails) : Response :=
  .Success ⟨⟨⟨[0], [details.simulationEndTime], []⟩, details.signalCriticalPositions, details.zoneUpdates⟩⟩

/-- A core that always answers. -/
def Core.always (project : Project) : Core project where
  fetch request := some
    (request.trainSimulations.map (project ⟨request.infra, request.expectedVersion⟩ request.path))
  sound _ _ h := (Option.some.inj h).symm

/-- A call for two trains. -/
def pairCall (project : Project) (infra : Infra) (path : TrainPath)
    (details details' : TrainBlockOccupancyDetails) : Call project where
  core := .always project
  visit := .inOrder
  appVersion := none
  infra := infra
  path := path
  simulations := [simulationOf details, simulationOf details']
  trainSchedules := [bareTrain, bareTrain]

theorem pairCall_details (project : Project) (infra : Infra) (path : TrainPath)
    (details details' : TrainBlockOccupancyDetails) :
    extractBlockOccupancyDetails (pairCall project infra path details details').simulations
      (pairCall project infra path details details').trainSchedules =
    some [some details, some details'] := rfl

/-- Both trains get the updates of the first one when the hashed details are the same. -/
theorem computeOccupancyBlocks_pair (hash : HashInput → ℕ) (project : Project) (infra : Infra)
    (path : TrainPath) (hpositions : details.signalCriticalPositions = details'.signalCriticalPositions)
    (hzones : details.zoneUpdates = details'.zoneUpdates) :
    computeOccupancyBlocks hash (fun _ => none) (pairCall project infra path details details') =
      .ok ([project infra path details, project infra path details],
        [((pairCall project infra path details details').key hash details,
          project infra path details)]) := by
  have hkey : (pairCall project infra path details details').key hash details' =
      (pairCall project infra path details details').key hash details := by
    simp only [Call.key, computeOccupancyBlockHashWithVersioning, hpositions, hzones]
  have hhashes : (pairCall project infra path details details').trainHashes hash
      [some details, some details'] =
      [⟨(pairCall project infra path details details').key hash details, details, [0, 1]⟩] := by
    simp only [Call.trainHashes, map_cons, Option.map_some, hkey]
    simp [pairCall, Visit.inOrder, groups, groupFrom, push]
  rw [computeOccupancyBlocks, pairCall_details]
  simp only [hhashes]
  rfl

/-- Every call gives each train its own updates, whatever the core answers, when the hashed details of the
    trains that are served determine the end of their simulation; and only then. -/
theorem givesOwnUpdates_iff {hash : HashInput → ℕ} (hhash : Function.Injective hash) (served : Served) :
    (∀ project, GivesOwnUpdates hash project served) ↔ EndTimesDetermined served := by
  constructor
  · intro h infra path details details' hserved hserved' hpositions hzones
    by_contra hne
    -- a core that tells the two ends apart
    let project : Project := fun _ _ d =>
      if d.simulationEndTime = details.simulationEndTime then []
      else [⟨"", "", 0, 0, 0, 0, 0, false, ""⟩]
    have hcall : (pairCall project infra path details details').From served := by
      intro trains hextract d hd
      rw [pairCall_details] at hextract
      cases hextract
      simp only [mem_cons, Option.some.injEq, not_mem_nil, or_false] at hd
      rcases hd with rfl | rfl
      · exact hserved
      · exact hserved'
    have hpair := computeOccupancyBlocks_pair hash project infra path hpositions hzones
    rcases h project _ .init _ hcall _ (pairCall_details ..) with hcore | ⟨entries, hok⟩
    · rw [hpair] at hcore
      cases hcore
    · rw [hpair] at hok
      have hsecond : project infra path details = project infra path details' := by
        simp only [Except.ok.injEq, mk.injEq, map_cons, cons.injEq] at hok
        exact hok.1.2.1
      simp [project, Ne.symm hne] at hsecond
  · intro htimes project s hs call hcall trains hdetails
    refine (computeOccupancyBlocks_own hhash htimes (hs.sound hhash htimes).cache hcall
      hdetails).imp_right ?_
    rintro ⟨entries, hok, -⟩
    exact ⟨entries, hok⟩

/-! ### A hash without collisions -/

def encodeText (text : String) : List ℕ := text.toList.map Char.toNat

theorem encodeText_injective : Function.Injective encodeText := by
  intro s t h
  have hlist := map_injective_iff.mpr (fun a b => Char.toNat_inj.mp) h
  exact String.toList_inj.mp hlist

def encodePosition (p : SignalCriticalPosition) : List ℕ × ℕ × ℕ × List ℕ :=
  (encodeText p.signal, p.time, p.position, encodeText p.state)

def encodeZone (z : ZoneUpdate) : List ℕ × ℕ × ℕ × Bool :=
  (encodeText z.zone, z.time, z.position, z.isEntry)

def encodeRange (r : ObjectRange) : List ℕ × ℕ × ℕ := (encodeText r.id, r.beginAt, r.endAt)

def encodeTrackRange (r : Projection.TrackRange) : List ℕ × ℕ × ℕ × Bool :=
  (encodeText r.trackSection, r.beginAt, r.endAt, decide (r.direction = .StartToStop))

def encodeInput (input : HashInput) : ℕ :=
  Encodable.encode (input.1.map encodePosition, input.2.1.map encodeZone,
    input.2.2.blocks.map encodeRange, input.2.2.routes.map encodeRange,
    input.2.2.trackSectionRanges.map encodeTrackRange)

theorem encodePosition_injective : Function.Injective encodePosition := by
  rintro ⟨a, b, c, d⟩ ⟨a', b', c', d'⟩ h
  simp only [encodePosition, mk.injEq, encodeText_injective.eq_iff] at h
  simp [h]

theorem encodeZone_injective : Function.Injective encodeZone := by
  rintro ⟨a, b, c, d⟩ ⟨a', b', c', d'⟩ h
  simp only [encodeZone, mk.injEq, encodeText_injective.eq_iff] at h
  simp [h]

theorem encodeRange_injective : Function.Injective encodeRange := by
  rintro ⟨a, b, c⟩ ⟨a', b', c'⟩ h
  simp only [encodeRange, mk.injEq, encodeText_injective.eq_iff] at h
  simp [h]

theorem encodeTrackRange_injective : Function.Injective encodeTrackRange := by
  rintro ⟨a, b, c, d⟩ ⟨a', b', c', d'⟩ h
  simp only [encodeTrackRange, mk.injEq, encodeText_injective.eq_iff] at h
  obtain ⟨rfl, rfl, rfl, h⟩ := h
  cases d <;> cases d' <;> simp at h ⊢

theorem encodeInput_injective : Function.Injective encodeInput := by
  rintro ⟨positions, zones, path⟩ ⟨positions', zones', path'⟩ h
  have h := Encodable.encode_injective h
  simp only [mk.injEq, (map_injective_iff.mpr encodePosition_injective).eq_iff,
    (map_injective_iff.mpr encodeZone_injective).eq_iff,
    (map_injective_iff.mpr encodeRange_injective).eq_iff,
    (map_injective_iff.mpr encodeTrackRange_injective).eq_iff] at h
  cases path
  cases path'
  simp_all

/-- Trains whose simulations all end at one time. -/
theorem givesOwnUpdates_iff_oneEnd :
    EndTimesDetermined (fun _ _ details => details.simulationEndTime = 10) ∧
      ∀ project, GivesOwnUpdates encodeInput project fun _ _ details => details.simulationEndTime = 10 := by
  have htimes : EndTimesDetermined fun _ _ details => details.simulationEndTime = 10 :=
    fun _ _ _ _ h h' _ _ => h.trans h'.symm
  exact ⟨htimes, (givesOwnUpdates_iff encodeInput_injective _).mpr htimes⟩

/-- The last aspect of a signal is shown until the simulation ends. -/
def lastAspect : Project := fun _ _ details =>
  [⟨"signal", "BAL", 0, details.simulationEndTime, 0, 100, 0, false, "VL"⟩]

/-- Two trains that pass one signal, the second with a stop at its end: it gets the end of the first. -/
theorem computeOccupancyBlocks_lateEnd :
    let call := pairCall lastAspect ⟨1, 1⟩ ⟨[], [], []⟩ ⟨[⟨"signal", 0, 0, "VL"⟩], [], 10⟩
      ⟨[⟨"signal", 0, 0, "VL"⟩], [], 20⟩
    Function.Injective encodeInput ∧
      (∃ entries, computeOccupancyBlocks encodeInput (fun _ => none) call =
        .ok ([[⟨"signal", "BAL", 0, 10, 0, 100, 0, false, "VL"⟩],
          [⟨"signal", "BAL", 0, 10, 0, 100, 0, false, "VL"⟩]], entries)) ∧
      (extractBlockOccupancyDetails call.simulations call.trainSchedules).map
          (List.map (ownUpdates call)) =
        some [[⟨"signal", "BAL", 0, 10, 0, 100, 0, false, "VL"⟩],
          [⟨"signal", "BAL", 0, 20, 0, 100, 0, false, "VL"⟩]] :=
  ⟨encodeInput_injective, ⟨_, computeOccupancyBlocks_pair encodeInput lastAspect ⟨1, 1⟩ ⟨[], [], []⟩
    rfl rfl⟩, rfl⟩

end Osrd.Timetable.Occupancy
