import Osrd.Lib.HashTable
import Osrd.Lib.DottedText
import Osrd.Timetable.PacedTrain
import Osrd.Projection.PathProjection
import Mathlib

/-! Model of the simulation of a list of trains (`editoast/src/views/timetable/simulation.rs`): the request
    that is made from a train and its path, the text under which its answer is cached, and the batch that
    asks for the answers.

    The trains of a chunk that make one request get one answer, and not only an equal one: they share one
    allocation. An `Arc` is therefore a value with an address. The addresses of a batch are named after the
    trains: the allocation that several trains share has the index of the first of them.

    As in the rest of the model a call that panics answers `none`. Durations are in milliseconds. -/

namespace Osrd.Timetable.Simulation

open Projection (TrackRange TrackOffset)
open List DottedText HashTable Option

variable {i : ℕ} {chunk : ℕ}

/-! ### Trains -/

inductive OperationalPointReference
  | Id (operationalPoint : String)
  | Trigram (trigram : String) (secondaryCode : Option String)
  | Uic (uic : ℕ) (secondaryCode : Option String)
deriving DecidableEq

structure OperationalPointPartReference where
  operationalPoint : OperationalPointReference
  localTrackName : Option String

inductive PathItemLocation
  | TrackOffset (trackOffset : TrackOffset)
  | OperationalPointPartReference (opRef : OperationalPointPartReference)

structure PathItem extends Timetable.PathItem where
  location : PathItemLocation

/-- What the code reads of a train. -/
structure TrainScheduleLike where
  rollingStockName : String
  path : List PathItem
  schedule : List ScheduleItem
  margins : Margins
  initialSpeed : ℚ
  comfort : Comfort
  constraintDistribution : Distribution
  speedLimitTag : Option String
  powerRestrictions : List PowerRestrictionItem
  options : TrainScheduleOptions

/-! ### Answers of the core -/

structure ObjectRange where
  id : String
  beginAt : ℕ
  endAt : ℕ

structure TrainPath where
  blocks : List ObjectRange
  routes : List ObjectRange
  trackSectionRanges : List TrackRange

structure PathfindingResultSuccess where
  path : TrainPath
  length : ℕ
  pathItemPositions : List ℕ

inductive PathfindingResult
  | Success (path : PathfindingResultSuccess)
  | Failure

structure ReportTrain where
  positions : List ℕ
  times : List ℕ
  pathItemTimes : List ℕ

structure SignalCriticalPosition where
  signal : String
  time : ℕ
  position : ℕ
  state : String

structure ZoneUpdate where
  zone : String
  time : ℕ
  position : ℕ
  isEntry : Bool

structure CompleteReportTrain where
  reportTrain : ReportTrain
  signalCriticalPositions : List SignalCriticalPosition
  zoneUpdates : List ZoneUpdate

structure SimulationResponseSuccess where
  finalOutput : CompleteReportTrain

inductive Response
  | Success (sim : SimulationResponseSuccess)
  | PathfindingFailed
  | SimulationFailed

/-! ### Times that are respected -/

def TIME_APPROX_ERROR : ℕ := 2000

/-- The largest signed number of 64 bits. -/
def i64Max : ℕ := 2 ^ 63 - 1

/-- A turn of the loop over the schedule. -/
def checkItem (pathItemTimesFinal : List ℕ) (pathItemIdToIndex : String → Option ℕ) (res : List Bool)
    (scheduleItem : ScheduleItem) : Option (List Bool) :=
  match scheduleItem.arrival with
  | none => some res
  | some arrival => do
      let pathItemIndex ← pathItemIdToIndex scheduleItem.atItem
      let pathItemTime ← pathItemTimesFinal[pathItemIndex]?
      if i64Max < pathItemTime then none
      else
        let difference : ℤ := (pathItemTime : ℤ) - (arrival : ℤ)
        return res.set pathItemIndex (decide (difference.natAbs < TIME_APPROX_ERROR))

def pathItemRespectTimes (pathItemTimesFinal : List ℕ) (trainSchedule : TrainScheduleLike) :
    Option (List Bool) :=
  let pathItemIdToIndex := collect (trainSchedule.path.zipIdx.map fun p => (p.1.id, p.2))
  trainSchedule.schedule.foldlM (checkItem pathItemTimesFinal pathItemIdToIndex)
    (List.replicate pathItemTimesFinal.length true)

/-! ### Requests -/

structure SimulationScheduleItem where
  pathOffset : ℕ
  arrival : Option ℕ
  stopFor : Option ℕ
  receptionSignal : ReceptionSignal

structure SimulationMargins where
  boundaries : List ℕ
  values : List MarginValue

structure SimulationPowerRestrictionItem where
  fromOffset : ℕ
  toOffset : ℕ
  value : String

structure Infra where
  id : ℤ
  version : ℤ

/-- The consists are parameters: the code only hands them over. -/
structure Request (Consist : Type) where
  infra : ℤ
  expectedVersion : ℤ
  path : TrainPath
  schedule : List SimulationScheduleItem
  margins : SimulationMargins
  initialSpeed : ℚ
  comfort : Comfort
  constraintDistribution : Distribution
  speedLimitTag : Option String
  powerRestrictions : List SimulationPowerRestrictionItem
  options : TrainScheduleOptions
  physicsConsist : Consist
  electricalProfileSetId : Option ℤ
  pathItemPositions : List ℕ

def buildPathItemsToPosition (pathItems : List PathItem) (pathItemPositions : List ℕ) :
    Option (String → Option ℕ) :=
  if pathItemPositions.length = pathItems.length then
    some (collect ((pathItems.map (·.id)).zip pathItemPositions))
  else none

def buildSimScheduleItems (scheduleItems : List ScheduleItem)
    (pathItemsToPosition : String → Option ℕ) : Option (List SimulationScheduleItem) :=
  scheduleItems.mapM fun item => do
    let pathOffset ← pathItemsToPosition item.atItem
    return ⟨pathOffset, item.arrival, item.stopFor, item.receptionSignal⟩

def buildSimMargins (margins : Margins) (pathItemsToPosition : String → Option ℕ) :
    Option SimulationMargins := do
  let boundaries ← margins.boundaries.mapM pathItemsToPosition
  return ⟨boundaries, margins.values⟩

def buildSimPowerRestrictionItems (powerRestrictions : List PowerRestrictionItem)
    (pathItemsToPosition : String → Option ℕ) : Option (List SimulationPowerRestrictionItem) :=
  powerRestrictions.mapM fun item => do
    let fromOffset ← pathItemsToPosition item.fromItem
    let toOffset ← pathItemsToPosition item.toItem
    return ⟨fromOffset, toOffset, item.value⟩

def buildSimulationRequest {Consist : Type} (infra : Infra) (trainSchedule : TrainScheduleLike)
    (pathItemPositions : List ℕ) (path : TrainPath) (electricalProfileSetId : Option ℤ)
    (physicsConsist : Consist) : Option (Request Consist) := do
  let pathItemsToPosition ← buildPathItemsToPosition trainSchedule.path pathItemPositions
  let schedule ← buildSimScheduleItems trainSchedule.schedule pathItemsToPosition
  let margins ← buildSimMargins trainSchedule.margins pathItemsToPosition
  let powerRestrictions ←
    buildSimPowerRestrictionItems trainSchedule.powerRestrictions pathItemsToPosition
  return {
    infra := infra.id
    expectedVersion := infra.version
    path := path
    schedule := schedule
    margins := margins
    initialSpeed := trainSchedule.initialSpeed
    comfort := trainSchedule.comfort
    constraintDistribution := trainSchedule.constraintDistribution
    speedLimitTag := trainSchedule.speedLimitTag
    powerRestrictions := powerRestrictions
    options := trainSchedule.options
    physicsConsist := physicsConsist
    electricalProfileSetId := electricalProfileSetId
    pathItemPositions := pathItemPositions }

/-! ### Keys of the cache -/

/-- The text under which an answer of some kind is cached. -/
def versionedKey (kind osrdVersion : String) (infraId infraVersion : ℤ) (hash : ℕ) : String :=
  kind ++ osrdVersion ++ "." ++ toString infraId ++ "." ++ toString infraVersion ++ "." ++
    toString hash

/-- The parts of a key can be read back, from its last dots. -/
theorem versionedKey_inj {kind v v' : String} {infraId infraId' infraVersion infraVersion' : ℤ}
    {hash hash' : ℕ} (h : versionedKey kind v infraId infraVersion hash =
      versionedKey kind v' infraId' infraVersion' hash') :
    v = v' ∧ infraId = infraId' ∧ infraVersion = infraVersion' ∧ hash = hash' := by
  obtain ⟨h, hhash⟩ := append_dot_inj (dot_notMem_nat _) (dot_notMem_nat _) h
  obtain ⟨h, hversion⟩ := append_dot_inj (dot_notMem_int _) (dot_notMem_int _) h
  obtain ⟨h, hid⟩ := append_dot_inj (dot_notMem_int _) (dot_notMem_int _) h
  have hlist : kind.toList ++ v.toList = kind.toList ++ v'.toList := by
    rw [← String.toList_append, h, String.toList_append]
  exact ⟨String.toList_inj.mp (append_cancel_left hlist), Int.repr_injective hid,
    Int.repr_injective hversion, Nat.repr_inj.mp hhash⟩

def computeTrainSimulationHashWithVersioning {Consist : Type} (hash : Request Consist → ℕ)
    (infraId infraVersion : ℤ) (simulationInput : Request Consist) (appVersion : Option String) :
    String :=
  versionedKey "simulation_" (appVersion.getD "default") infraId infraVersion (hash simulationInput)

/-! ### Batches -/

/-- A shared allocation. -/
structure Arc (α : Type) where
  address : ℕ
  value : α

/-- What a chunk of trains reads from outside: the cached answers, the answers of the core (`none` when the
    call fails), and the order of its hash map. -/
structure Services (Consist : Type) where
  cached : String → Option Response
  fetch : Request Consist → Option Response
  visit : Visit (Bucket String (Request Consist))

/-- A train and the answer to its pathfinding. -/
abbrev PathedTrain := PathfindingResult × TrainScheduleLike

/-- What the whole batch reads, with the hash of a request. -/
structure Batch (Consist : Type) where
  hash : Request Consist → ℕ
  infra : Infra
  consists : String → Option Consist
  electricalProfileSetId : Option ℤ
  appVersion : Option String

variable {w : List ℕ × Option (Arc Response)}

section Batches

variable {Consist : Type}

/-- The hash and the request of a train, if it has a path. -/
def simulationInput (batch : Batch Consist) : PathedTrain → Option (Option (String × Request Consist))
  | (.Failure, _) => some none
  | (.Success path, trainSchedule) => do
      let physicsConsist ← batch.consists trainSchedule.rollingStockName
      let request ← buildSimulationRequest batch.infra trainSchedule path.pathItemPositions path.path
        batch.electricalProfileSetId physicsConsist
      return some (computeTrainSimulationHashWithVersioning batch.hash batch.infra.id
        batch.infra.version request batch.appVersion, request)

/-- The answer for a group, in one allocation. -/
def shareAnswer (base : ℕ) (group : Bucket String (Request Consist)) (sim : Response) :
    List ℕ × Option (Arc Response) :=
  (group.indexes, some ⟨base + group.indexes.headD 0, sim⟩)

variable (services : Services Consist)

def hitWrites (base : ℕ) (group : Bucket String (Request Consist)) :
    List (List ℕ × Option (Arc Response)) :=
  match services.cached group.key with
  | some simCached => [shareAnswer base group simCached]
  | none => []

/-- A call that fails gives each train an allocation of its own. -/
def missWrites (base : ℕ) (group : Bucket String (Request Consist)) :
    List (List ℕ × Option (Arc Response)) :=
  match services.cached group.key, services.fetch group.first with
  | some _, _ => []
  | none, some simRes => [shareAnswer base group simRes]
  | none, none => group.indexes.map fun index => ([index], some ⟨base + index, .SimulationFailed⟩)

/-- The results before the requests: a train without path has its answer. -/
def failedAnswer (base : ℕ) (input : Option (String × Request Consist)) (index : ℕ) :
    Option (Arc Response) :=
  match input with
  | none => some ⟨base + index, .PathfindingFailed⟩
  | some _ => none

/-- The results of the trains of a chunk, in their order. -/
def simulationResults (base : ℕ)
    (inputs : List (Option (String × Request Consist))) : List (Option (Arc Response)) :=
  let toSim := services.visit.order (groups inputs)
  let results := inputs.zipIdx.map fun p => failedAnswer base p.1 p.2
  let results := fillAll results (toSim.flatMap (hitWrites services base))
  fillAll results (toSim.flatMap (missWrites services base))

def consistTrainSimulationBatch (batch : Batch Consist) (services : Services Consist) (base : ℕ)
    (trains : List PathedTrain) : Option (List (Arc Response × PathfindingResult)) := do
  let inputs ← trains.mapM (simulationInput batch)
  return (simulationResults services base inputs).reduceOption.zip (trains.map Prod.fst)

def TRAIN_SIZE_BATCH : ℕ := 100

/-- The chunks of a batch, from the given one on. -/
def simulateChunks (batch : Batch Consist) (services : ℕ → Services Consist) :
    (chunk remaining : ℕ) → List PathedTrain → Option (List (Arc Response × PathfindingResult))
  | _, 0, _ => some []
  | chunk, remaining + 1, trains => do
      let results ← consistTrainSimulationBatch batch (services chunk) (TRAIN_SIZE_BATCH * chunk)
        (trains.take TRAIN_SIZE_BATCH)
      let others ← simulateChunks batch services (chunk + 1) remaining (trains.drop TRAIN_SIZE_BATCH)
      return results ++ others

/-- The services are those of each chunk: the chunks are tasks of their own. -/
def trainSimulationBatch (batch : Batch Consist) (services : ℕ → Services Consist)
    (trains : List PathedTrain) : Option (List (Arc Response × PathfindingResult)) :=
  simulateChunks batch services 0 ((trains.length + TRAIN_SIZE_BATCH - 1) / TRAIN_SIZE_BATCH) trains

/-! ### Who shares an answer -/

/-- The answer of a group, if it has one for all its trains. -/
def groupAnswer (group : Bucket String (Request Consist)) :
    Option Response := (services.cached group.key).or (services.fetch group.first)

/-- The allocation that a train of a group gets. -/
def groupArc (base : ℕ) (group : Bucket String (Request Consist)) (index : ℕ) : Arc Response :=
  match groupAnswer services group with
  | some sim => ⟨base + group.indexes.headD 0, sim⟩
  | none => ⟨base + index, .SimulationFailed⟩

/-- The writes for a group. -/
theorem writes_eq (base : ℕ) (group : Bucket String (Request Consist)) :
    hitWrites services base group ++ missWrites services base group =
      match groupAnswer services group with
      | some sim => [shareAnswer base group sim]
      | none => group.indexes.map fun index => ([index], some ⟨base + index, .SimulationFailed⟩) := by
  rw [hitWrites, missWrites, groupAnswer]
  cases services.cached group.key with
  | some sim => rfl
  | none => cases services.fetch group.first <;> rfl

variable {group : Bucket String (Request Consist)} {services : Services Consist}

theorem writes_at {base : ℕ}
    (hw : w ∈ hitWrites services base group ++ missWrites services base group) (hi : i ∈ w.1) :
    i ∈ group.indexes ∧ w.2 = some (groupArc services base group i) := by
  rw [writes_eq] at hw
  rw [groupArc]
  cases hanswer : groupAnswer services group with
  | some sim =>
    rw [hanswer, mem_singleton] at hw
    subst hw
    exact ⟨hi, rfl⟩
  | none =>
    rw [hanswer] at hw
    obtain ⟨j, hj, rfl⟩ := mem_map.mp hw
    cases mem_singleton.mp hi
    exact ⟨hj, rfl⟩

theorem exists_write (services : Services Consist) (base : ℕ) (hi : i ∈ group.indexes) :
    ∃ w ∈ hitWrites services base group ++ missWrites services base group, i ∈ w.1 := by
  rw [writes_eq]
  cases groupAnswer services group with
  | some sim => exact ⟨_, mem_singleton_self _, hi⟩
  | none => exact ⟨_, mem_map_of_mem hi, mem_singleton_self i⟩

/-- The allocation that a train gets. -/
inductive Answered (services : Services Consist) (base : ℕ)
    (inputs : List (Option (String × Request Consist))) (i : ℕ) : Arc Response → Prop
  | failed : inputs[i]? = some none → Answered services base inputs i ⟨base + i, .PathfindingFailed⟩
  | grouped {g : Bucket String (Request Consist)} : g ∈ groups inputs → i ∈ g.indexes →
      Answered services base inputs i (groupArc services base g i)

section Chunk

variable {services : Services Consist} {base : ℕ} {inputs : List (Option (String × Request Consist))}

theorem mem_writes :
    w ∈ (services.visit.order (groups inputs)).flatMap (hitWrites services base) ++
      (services.visit.order (groups inputs)).flatMap (missWrites services base) ↔
    ∃ g ∈ groups inputs, w ∈ hitWrites services base g ++ missWrites services base g := by
  simp only [mem_append, mem_flatMap, services.visit.mem_order]
  constructor
  · rintro (⟨g, hg, hw⟩ | ⟨g, hg, hw⟩)
    · exact ⟨g, hg, .inl hw⟩
    · exact ⟨g, hg, .inr hw⟩
  · rintro ⟨g, hg, hw | hw⟩
    · exact .inl ⟨g, hg, hw⟩
    · exact .inr ⟨g, hg, hw⟩

theorem simulationResults_eq : simulationResults services base inputs =
    fillAll (inputs.zipIdx.map fun p => failedAnswer base p.1 p.2)
      ((services.visit.order (groups inputs)).flatMap (hitWrites services base) ++
        (services.visit.order (groups inputs)).flatMap (missWrites services base)) :=
  foldl_append.symm

/-- Every train gets an allocation. -/
theorem simulationResults_at (hi : i < inputs.length) : ∃ arc,
    (simulationResults services base inputs)[i]? = some (some arc) ∧
      Answered services base inputs i arc := by
  have hgrouped := groups_grouped inputs
  have hinit : (inputs.zipIdx.map fun p => failedAnswer base p.1 p.2)[i]? =
      some (failedAnswer base inputs[i] i) := by simp [hi]
  have hget : inputs[i]? = some inputs[i] := getElem?_eq_getElem hi
  rw [simulationResults_eq]
  cases hinput : inputs[i] with
  | none =>
    rw [hinput] at hget hinit
    refine ⟨_, ?_, .failed hget⟩
    rw [getElem?_fillAll_of_notMem, hinit, failedAnswer]
    intro w hw hmem
    obtain ⟨g, hg, hw⟩ := mem_writes.mp hw
    obtain ⟨r, hr⟩ := hgrouped.sound g hg i (writes_at hw hmem).1
    rw [hget] at hr
    cases hr
  | some kr =>
    rw [hinput] at hget
    obtain ⟨g, hg, -, hmem⟩ := hgrouped.complete i kr.1 kr.2 hget
    refine ⟨_, ?_, .grouped hg hmem⟩
    apply getElem?_fillAll
    · simpa using hi
    · obtain ⟨w, hw, hiw⟩ := exists_write services base hmem
      exact ⟨w, mem_writes.mpr ⟨g, hg, hw⟩, hiw⟩
    · intro w hw hiw
      obtain ⟨g', hg', hw⟩ := mem_writes.mp hw
      obtain ⟨hmem', hvalue⟩ := writes_at hw hiw
      rw [hvalue, hgrouped.eq_of_mem hg' hg hmem' hmem]

/-- A group has a first train. -/
theorem exists_leader {g : Bucket String (Request Consist)} (hg : g ∈ groups inputs) :
    g.indexes.headD 0 ∈ g.indexes := by
  obtain ⟨i, hi, -⟩ := (groups_grouped inputs).first g hg
  rw [headD_eq_head?_getD, hi, getD_some]
  exact mem_of_head? hi

variable {arc : Arc Response}

namespace Answered

/-- The train after which the allocation is named. -/
theorem address_eq (h : Answered services base inputs i arc) :
    ∃ j, arc.address = base + j ∧ Answered services base inputs j arc ∧
      (i = j ∨ ∃ g ∈ groups inputs, i ∈ g.indexes ∧ j ∈ g.indexes) := by
  cases h with
  | failed hi => exact ⟨i, rfl, .failed hi, .inl rfl⟩
  | @grouped g hg hi =>
    cases hanswer : groupAnswer services g with
    | some sim =>
      have harc : ∀ j, groupArc services base g j = ⟨base + g.indexes.headD 0, sim⟩ := by
        intro j
        rw [groupArc, hanswer]
      refine ⟨g.indexes.headD 0, by rw [harc], ?_, .inr ⟨g, hg, hi, exists_leader hg⟩⟩
      rw [harc i, ← harc (g.indexes.headD 0)]
      exact .grouped hg (exists_leader hg)
    | none =>
      refine ⟨i, ?_, .grouped hg hi, .inl rfl⟩
      rw [groupArc, hanswer]

/-- A train has one allocation. -/
theorem unique {a b : Arc Response} (ha : Answered services base inputs i a)
    (hb : Answered services base inputs i b) : a = b := by
  have hgrouped := groups_grouped inputs
  cases ha with
  | failed hi =>
    cases hb with
    | failed => rfl
    | grouped hg hmem =>
      obtain ⟨r, hr⟩ := hgrouped.sound _ hg i hmem
      rw [hi] at hr
      cases hr
  | grouped hg hmem =>
    cases hb with
    | failed hi =>
      obtain ⟨r, hr⟩ := hgrouped.sound _ hg i hmem
      rw [hi] at hr
      cases hr
    | grouped hg' hmem' => rw [hgrouped.eq_of_mem hg hg' hmem hmem']

theorem lt_length (h : Answered services base inputs i arc) : i < inputs.length := by
  cases h with
  | failed hi => exact (List.getElem?_eq_some_iff.mp hi).1
  | grouped hg hi =>
    obtain ⟨r, hr⟩ := (groups_grouped inputs).sound _ hg i hi
    exact (List.getElem?_eq_some_iff.mp hr).1

/-- One address, one allocation: of one train, or of the trains of a group. -/
theorem shared {i j : ℕ} {a b : Arc Response} (ha : Answered services base inputs i a)
    (hb : Answered services base inputs j b) (haddress : a.address = b.address) :
    a = b ∧ (i = j ∨ ∃ g ∈ groups inputs, i ∈ g.indexes ∧ j ∈ g.indexes) := by
  obtain ⟨i', hi', hai', hi⟩ := ha.address_eq
  obtain ⟨j', hj', hbj', hj⟩ := hb.address_eq
  have heq : i' = j' := by omega
  subst heq
  refine ⟨hai'.unique hbj', ?_⟩
  rcases hi with rfl | ⟨g, hg, hi, hi'⟩
  · rcases hj with rfl | ⟨g, hg, hj, hj'⟩
    · exact .inl rfl
    · exact .inr ⟨g, hg, hj', hj⟩
  · rcases hj with rfl | ⟨g', hg', hj, hj'⟩
    · exact .inr ⟨g, hg, hi, hi'⟩
    · cases (groups_grouped inputs).eq_of_mem hg hg' hi' hj'
      exact .inr ⟨g, hg, hi, hj⟩

end Answered

/-- No train is dropped at the end. -/
theorem eq_map_some {α : Type} : ∀ {l : List (Option α)}, (∀ x ∈ l, x ≠ none) → l = l.reduceOption.map some
  | [], _ => rfl
  | none :: _, h => absurd rfl (h none mem_cons_self)
  | some a :: l, h => by
    rw [reduceOption_cons_of_some, map_cons, ← eq_map_some (forall_mem_cons.mp h).2]

theorem length_simulationResults : (simulationResults services base inputs).length = inputs.length := by
  simp [simulationResults_eq, length_fillAll]

theorem simulationResults_eq_map : simulationResults services base inputs =
    (simulationResults services base inputs).reduceOption.map some := by
  apply eq_map_some
  intro x hx hnone
  subst hnone
  obtain ⟨i, hget⟩ := mem_iff_getElem?.mp hx
  have hi := (List.getElem?_eq_some_iff.mp hget).1
  rw [length_simulationResults] at hi
  obtain ⟨arc, harc, -⟩ := simulationResults_at hi
  rw [hget] at harc
  cases harc

theorem length_reduceOption :
    (simulationResults services base inputs).reduceOption.length = inputs.length := by
  have h := congrArg length (@simulationResults_eq_map _ services base inputs)
  rw [length_simulationResults, length_map] at h
  exact h.symm

theorem answered_of_result (h : (simulationResults services base inputs).reduceOption[i]? = some arc) :
    Answered services base inputs i arc := by
  have hresult : (simulationResults services base inputs)[i]? = some (some arc) := by
    rw [simulationResults_eq_map, getElem?_map, h, map_some]
  have hi : i < inputs.length := by
    rw [← length_simulationResults]
    exact (List.getElem?_eq_some_iff.mp hresult).1
  obtain ⟨arc', harc', h'⟩ := simulationResults_at hi
  rw [hresult] at harc'
  cases harc'
  exact h'

end Chunk

/-- Two trains make requests with one hash. -/
def SameHash (batch : Batch Consist) (t t' : PathedTrain) : Prop :=
  ∃ key r r', simulationInput batch t = some (some (key, r)) ∧
    simulationInput batch t' = some (some (key, r'))

theorem exists_path_of_input {batch : Batch Consist} {t : PathedTrain} {kr : String × Request Consist}
    (h : simulationInput batch t = some (some kr)) : ∃ path, t.1 = .Success path := by
  rcases t with ⟨path | _, ts⟩
  · exact ⟨path, rfl⟩
  · cases h

/-- The answers of the trains from the given chunk on: each train has the answer to its pathfinding, and
    two trains with one allocation are in one chunk and make requests with one hash. -/
structure Shares (batch : Batch Consist) (chunk : ℕ) (trains : List PathedTrain)
    (results : List (Arc Response × PathfindingResult)) : Prop where
  pathfindings : results.map Prod.snd = trains.map Prod.fst
  address {i : ℕ} {r : Arc Response × PathfindingResult} : results[i]? = some r →
    r.1.address / TRAIN_SIZE_BATCH = chunk + i / TRAIN_SIZE_BATCH
  shared {i j : ℕ} {r s : Arc Response × PathfindingResult} : results[i]? = some r →
    results[j]? = some s → r.1.address = s.1.address → r.1 = s.1 ∧
      (i = j ∨ ∃ t t', trains[i]? = some t ∧ trains[j]? = some t' ∧ SameHash batch t t')

variable {batch : Batch Consist}

variable {results : List (Arc Response × PathfindingResult)} {trains : List PathedTrain}

theorem Shares.length_eq (h : Shares batch chunk trains results) :
    results.length = trains.length := by
  simpa using congrArg length h.pathfindings

theorem consistTrainSimulationBatch_shares
    (h : consistTrainSimulationBatch batch services (TRAIN_SIZE_BATCH * chunk) trains = some results)
    (hlen : trains.length ≤ TRAIN_SIZE_BATCH) : Shares batch chunk trains results := by
  obtain ⟨inputs, hinputs, h⟩ := bind_eq_some_iff.mp h
  have hlength : inputs.length = trains.length := Partial.length_of_mapM hinputs
  have hfirst : ∀ {i r}, results[i]? = some r →
      Answered services (TRAIN_SIZE_BATCH * chunk) inputs i r.1 := by
    intro i r hr
    cases h
    apply answered_of_result
    rw [getElem?_zip_eq_some] at hr
    exact hr.1
  refine ⟨?_, ?_, ?_⟩
  · cases h
    rw [map_snd_zip]
    rw [length_map, ← hlength, length_reduceOption]
  · intro i r hr
    obtain ⟨j, hj, hanswered, -⟩ := (hfirst hr).address_eq
    have hjlt := hanswered.lt_length
    have hilt := (hfirst hr).lt_length
    rw [hj, TRAIN_SIZE_BATCH] at *
    omega
  · intro i j r s hr hs haddress
    obtain ⟨heq, hij⟩ := (hfirst hr).shared (hfirst hs) haddress
    refine ⟨heq, hij.imp_right ?_⟩
    rintro ⟨g, hg, hi, hj⟩
    have hgrouped := groups_grouped inputs
    obtain ⟨r, hr⟩ := hgrouped.sound g hg i hi
    obtain ⟨r', hr'⟩ := hgrouped.sound g hg j hj
    rw [Partial.getElem?_of_mapM hinputs, bind_eq_some_iff] at hr hr'
    obtain ⟨t, ht, hinput⟩ := hr
    obtain ⟨t', ht', hinput'⟩ := hr'
    exact ⟨t, t', ht, ht', g.key, r, r', hinput, hinput'⟩

/-- A chunk and the chunks after it: only a full chunk is followed by trains. -/
theorem Shares.append {results others : List (Arc Response × PathfindingResult)}
    (h : Shares batch chunk (trains.take TRAIN_SIZE_BATCH) results)
    (h' : Shares batch (chunk + 1) (trains.drop TRAIN_SIZE_BATCH) others) :
    Shares batch chunk trains (results ++ others) := by
  have hlen := h.length_eq
  have hlen' := h'.length_eq
  rw [length_take] at hlen
  rw [length_drop] at hlen'
  -- an index is in the chunk, or it is in a later one and the chunk is full
  have hcases : ∀ {i r}, (results ++ others)[i]? = some r →
      (i < TRAIN_SIZE_BATCH ∧ results[i]? = some r ∧ trains[i]? = (trains.take TRAIN_SIZE_BATCH)[i]?) ∨
      (∃ k, i = TRAIN_SIZE_BATCH + k ∧ others[k]? = some r ∧
        trains[i]? = (trains.drop TRAIN_SIZE_BATCH)[k]?) := by
    intro i r hr
    by_cases hi : i < results.length
    · have hlt : i < TRAIN_SIZE_BATCH := by omega
      rw [getElem?_append_left hi] at hr
      exact .inl ⟨hlt, hr, by rw [getElem?_take_of_lt hlt]⟩
    · rw [getElem?_append_right (by omega)] at hr
      have hlt := (List.getElem?_eq_some_iff.mp hr).1
      have hfull : results.length = TRAIN_SIZE_BATCH := by omega
      rw [hfull] at hr hi
      refine .inr ⟨i - TRAIN_SIZE_BATCH, by omega, hr, ?_⟩
      rw [getElem?_drop]
      congr 1
      omega
  have haddress : ∀ {i r}, (results ++ others)[i]? = some r →
      r.1.address / TRAIN_SIZE_BATCH = chunk + i / TRAIN_SIZE_BATCH := by
    intro i r hr
    rcases hcases hr with ⟨-, hr, -⟩ | ⟨k, rfl, hr, -⟩
    · exact h.address hr
    · rw [h'.address hr, TRAIN_SIZE_BATCH]
      omega
  refine ⟨?_, haddress, ?_⟩
  · rw [map_append, h.pathfindings, h'.pathfindings, ← map_append, take_append_drop]
  · intro i j r s hr hs heq
    have hchunk : i / TRAIN_SIZE_BATCH = j / TRAIN_SIZE_BATCH := by
      have hi := haddress hr
      have hj := haddress hs
      rw [heq] at hi
      omega
    rcases hcases hr with ⟨hi, hr, hti⟩ | ⟨k, rfl, hr, hti⟩
    · rcases hcases hs with ⟨hj, hs, htj⟩ | ⟨l, rfl, hs, htj⟩
      · rw [hti, htj]
        exact h.shared hr hs heq
      · rw [TRAIN_SIZE_BATCH] at *
        omega
    · rcases hcases hs with ⟨hj, hs, htj⟩ | ⟨l, rfl, hs, htj⟩
      · rw [TRAIN_SIZE_BATCH] at *
        omega
      · rw [hti, htj, Nat.add_left_cancel_iff]
        exact h'.shared hr hs heq

variable {services : ℕ → Services Consist}

theorem simulateChunks_shares : ∀ {chunk remaining : ℕ} {trains : List PathedTrain}
      {results : List (Arc Response × PathfindingResult)},
    simulateChunks batch services chunk remaining trains = some results →
    trains.length ≤ TRAIN_SIZE_BATCH * remaining → Shares batch chunk trains results
  | chunk, 0, trains, results, h, hlen => by
    cases h
    have hnil : trains = [] := by
      apply eq_nil_of_length_eq_zero
      omega
    subst hnil
    refine ⟨rfl, ?_, ?_⟩
    · intro i r hr
      cases hr
    · intro i j r s hr
      cases hr
  | chunk, remaining + 1, trains, results, h, hlen => by
    obtain ⟨first, hfirst, h⟩ := bind_eq_some_iff.mp h
    obtain ⟨others, hothers, h⟩ := bind_eq_some_iff.mp h
    cases h
    have hdrop : (trains.drop TRAIN_SIZE_BATCH).length ≤ TRAIN_SIZE_BATCH * remaining := by
      rw [length_drop]
      rw [TRAIN_SIZE_BATCH] at *
      omega
    have htake : (trains.take TRAIN_SIZE_BATCH).length ≤ TRAIN_SIZE_BATCH := by simp
    exact (consistTrainSimulationBatch_shares hfirst htake).append
      (simulateChunks_shares hothers hdrop)

theorem trainSimulationBatch_shares (h : trainSimulationBatch batch services trains = some results) :
    Shares batch 0 trains results := by
  refine simulateChunks_shares h ?_
  rw [TRAIN_SIZE_BATCH]
  omega

end Batches

end Osrd.Timetable.Simulation
