import Osrd.Timetable.PacedTrain
import Mathlib.Data.List.Sort

/-! Model of the occurrences of a train schedule (`editoast/src/models/train_schedule.rs`), and what
    `iter_occurrences` yields for a schedule that the API has accepted.

    The occurrences of the base indices are replaced and struck out exception by exception. What stands at
    an index in the end is the occurrence of the last exception that modifies it (`occurrenceAt`), and it
    is left out when some exception disables it. -/

namespace Osrd.Timetable

open List Option ExceptionType.Modified

/-- The instants that a date can be. -/
structure Calendar where
  earliest : ℤ
  latest : ℤ

/-- A date that cannot be represented panics. -/
def Calendar.add (calendar : Calendar) (t duration : ℤ) : Option ℤ :=
  if calendar.earliest ≤ t + duration ∧ t + duration ≤ calendar.latest then some (t + duration) else none

inductive OccurrenceId
  | Base (trainScheduleId : ℤ) (index : ℕ)
  | Modified (trainScheduleId : ℤ) (index : ℕ) (exceptionKey : String)
  | Created (trainScheduleId : ℤ) (exceptionKey : String)
deriving DecidableEq

variable {o : OccurrenceId × TrainOccurrence}

/-- A train schedule as it is stored. -/
structure TrainSchedule where
  id : ℤ
  trainName : String
  labels : List String
  rollingStockName : String
  startTime : ℤ
  schedule : List ScheduleItem
  margins : Margins
  initialSpeed : ℚ
  comfort : Comfort
  path : List PathItem
  constraintDistribution : Distribution
  speedLimitTag : Option String
  powerRestrictions : List PowerRestrictionItem
  options : TrainScheduleOptions
  timeWindow : Option ℕ
  interval : Option ℕ
  mainCategory : Option TrainMainCategory
  subCategory : Option String
  exceptions : List PacedTrainException

namespace TrainSchedule

/-- The schedule that is stored for a schedule of the API, under the id it is given. -/
def fromPacedTrain (id : ℤ) (s : PacedTrain.TrainSchedule) : TrainSchedule where
  id := id
  trainName := s.trainOccurrence.trainName
  labels := s.trainOccurrence.labels
  rollingStockName := s.trainOccurrence.rollingStockName
  startTime := s.trainOccurrence.startTime
  schedule := s.trainOccurrence.schedule
  margins := s.trainOccurrence.margins
  initialSpeed := s.trainOccurrence.initialSpeed
  comfort := s.trainOccurrence.comfort
  path := s.trainOccurrence.path
  constraintDistribution := s.trainOccurrence.constraintDistribution
  speedLimitTag := s.trainOccurrence.speedLimitTag
  powerRestrictions := s.trainOccurrence.powerRestrictions
  options := s.trainOccurrence.options
  timeWindow := s.paced.map (·.timeWindow)
  interval := s.paced.map (·.interval)
  mainCategory := match s.trainOccurrence.category with
    | some (.Main mainCategory) => some mainCategory
    | _ => none
  subCategory := match s.trainOccurrence.category with
    | some (.Sub subCategoryCode) => some subCategoryCode
    | _ => none
  exceptions := (s.paced.map (·.exceptions)).getD []

/-- The one of the two that is there. -/
def xorOption {α : Type} : Option α → Option α → Option α
  | some a, none => some a
  | none, some b => some b
  | _, _ => none

def intoTrainOccurrence (s : TrainSchedule) : TrainOccurrence where
  trainName := s.trainName
  labels := s.labels
  rollingStockName := s.rollingStockName
  startTime := s.startTime
  path := s.path
  schedule := s.schedule
  margins := s.margins
  initialSpeed := s.initialSpeed
  comfort := s.comfort
  constraintDistribution := s.constraintDistribution
  speedLimitTag := s.speedLimitTag
  powerRestrictions := s.powerRestrictions
  options := s.options
  category := xorOption (s.mainCategory.map .Main) (s.subCategory.map .Sub)

def pace (s : TrainSchedule) : Option (ℕ × ℕ) := do
  let timeWindow ← s.timeWindow
  let interval ← s.interval
  return (timeWindow, interval)

/-- A division by zero panics. -/
def numBaseOccurrences (s : TrainSchedule) : Option ℕ :=
  match s.pace with
  | some (timeWindow, interval) =>
      if numSeconds interval = 0 then none else some (numSeconds timeWindow / numSeconds interval)
  | none => some 1

variable (calendar : Calendar)

/-- The index is cast to a signed number of 32 bits. -/
def getOccurrenceStartTime (s : TrainSchedule) (occurrenceIndex : ℕ) : Option ℤ :=
  match s.interval with
  | some interval =>
      calendar.add s.startTime ((interval * 1000000 : ℕ) * Int.bmod occurrenceIndex (2 ^ 32))
  | none => some s.startTime

def applyException (s : TrainSchedule) (e : PacedTrainException) : Option TrainOccurrence := do
  let o := s.intoTrainOccurrence
  let groups := e.changeGroups
  let startTime ← match groups.startTime, e.exceptionType with
    | some startTime, _ => some startTime
    | none, .Modified occurrenceIndex => s.getOccurrenceStartTime calendar occurrenceIndex
    | none, .Created => some o.startTime
  return {
    trainName := groups.trainName.getD o.trainName
    labels := groups.labels.getD o.labels
    rollingStockName := (groups.rollingStock.map (·.rollingStockName)).getD o.rollingStockName
    startTime := startTime
    path := (groups.pathAndSchedule.map (·.path)).getD o.path
    schedule := (groups.pathAndSchedule.map (·.schedule)).getD o.schedule
    margins := (groups.pathAndSchedule.map (·.margins)).getD o.margins
    initialSpeed := groups.initialSpeed.getD o.initialSpeed
    comfort := (groups.rollingStock.map (·.comfort)).getD o.comfort
    constraintDistribution := groups.constraintDistribution.getD o.constraintDistribution
    speedLimitTag := groups.speedLimitTag.getD o.speedLimitTag
    powerRestrictions := (groups.pathAndSchedule.map (·.powerRestrictions)).getD o.powerRestrictions
    options := groups.options.getD o.options
    category := groups.rollingStockCategory.getD o.category }

/-- All of them, also those that are disabled. -/
def getCreatedOccurrencesExceptions (s : TrainSchedule) :
    Option (List (OccurrenceId × TrainOccurrence)) :=
  (s.exceptions.filter fun e => e.exceptionType = .Created).mapM fun e => do
    let occurrence ← s.applyException calendar e
    return (.Created s.id e.key, occurrence)

def baseOccurrence (s : TrainSchedule) (occurrenceIdx : ℕ) :
    Option (OccurrenceId × TrainOccurrence) := do
  let baseStartTime ← s.getOccurrenceStartTime calendar occurrenceIdx
  return (.Base s.id occurrenceIdx, { s.intoTrainOccurrence with startTime := baseStartTime })

def getBaseOccurrences (s : TrainSchedule) : Option (List (OccurrenceId × TrainOccurrence)) := do
  let n ← s.numBaseOccurrences
  (List.range n).mapM (s.baseOccurrence calendar)

/-- What the loop over the modified exceptions changes. -/
structure Pending where
  occurrences : List (OccurrenceId × TrainOccurrence)
  toRemove : List Bool

/-- A turn of the loop over the modified exceptions. An index that is out of bounds is passed over. -/
def applyModified (s : TrainSchedule) (p : Pending) (e : PacedTrainException) : Option Pending :=
  match e.exceptionType with
  | .Created => some p
  | .Modified occurrenceIndex =>
      if occurrenceIndex < p.occurrences.length then
        if e.disabled then some { p with toRemove := p.toRemove.set occurrenceIndex true }
        else do
          let occurrence ← s.applyException calendar e
          return { p with occurrences :=
            p.occurrences.set occurrenceIndex (.Modified s.id occurrenceIndex e.key, occurrence) }
      else some p

def iterOccurrences (s : TrainSchedule) : Option (List (OccurrenceId × TrainOccurrence)) := do
  let baseOccurrences ← s.getBaseOccurrences calendar
  let pending ← s.exceptions.foldlM (s.applyModified calendar)
    ⟨baseOccurrences, List.replicate baseOccurrences.length false⟩
  let occurrences := ((pending.occurrences.zip pending.toRemove).filter (!·.2)).map (·.1)
  let created ← s.getCreatedOccurrencesExceptions calendar
  return (occurrences ++ created).insertionSort fun a b => a.2.startTime ≤ b.2.startTime

end TrainSchedule

/-! ### What stands at an index -/

namespace PacedTrainException

def Modifies (e : PacedTrainException) (i : ℕ) : Prop :=
  e.exceptionType = .Modified i ∧ e.disabled = false

def Disables (e : PacedTrainException) (i : ℕ) : Prop :=
  e.exceptionType = .Modified i ∧ e.disabled = true

instance (e : PacedTrainException) (i : ℕ) : Decidable (e.Modifies i) :=
  inferInstanceAs (Decidable (_ ∧ _))

instance (e : PacedTrainException) (i : ℕ) : Decidable (e.Disables i) :=
  inferInstanceAs (Decidable (_ ∧ _))

end PacedTrainException

namespace OccurrenceId

/-- The base index that an occurrence stands for. -/
def index : OccurrenceId → Option ℕ
  | Base _ index => some index
  | Modified _ index _ => some index
  | Created _ _ => none

/-- The key of the exception that has created an occurrence. -/
def createdKey : OccurrenceId → Option String
  | Created _ exceptionKey => some exceptionKey
  | _ => none

/-- The key of the exception that an occurrence comes from. -/
def exceptionKey : OccurrenceId → Option String
  | Base _ _ => none
  | Modified _ _ exceptionKey => some exceptionKey
  | Created _ exceptionKey => some exceptionKey

end OccurrenceId

namespace TrainSchedule

variable {calendar : Calendar} {s : TrainSchedule}

def modifiedOccurrence (calendar : Calendar) (s : TrainSchedule) (i : ℕ) (e : PacedTrainException) :
    Option (OccurrenceId × TrainOccurrence) :=
  (s.applyException calendar e).map fun occurrence => (.Modified s.id i e.key, occurrence)

/-- The occurrence at a base index: that of the last exception that modifies it. -/
def occurrenceAt (calendar : Calendar) (s : TrainSchedule) (exceptions : List PacedTrainException)
    (i : ℕ) : Option (OccurrenceId × TrainOccurrence) :=
  match (exceptions.filter fun e => e.Modifies i).getLast? with
  | none => s.baseOccurrence calendar i
  | some e => s.modifiedOccurrence calendar i e

theorem occurrenceAt_concat (exceptions : List PacedTrainException) (e : PacedTrainException) (i : ℕ) :
    s.occurrenceAt calendar (exceptions ++ [e]) i = if e.Modifies i then s.modifiedOccurrence calendar i e
      else s.occurrenceAt calendar exceptions i := by
  by_cases h : e.Modifies i
  · have hlast : ([e].filter fun e => e.Modifies i) = [e] := by simp [h]
    rw [if_pos h, occurrenceAt, filter_append, hlast, getLast?_concat]
  · have hnone : ([e].filter fun e => e.Modifies i) = [] := by simp [h]
    rw [if_neg h, occurrenceAt, filter_append, hnone, append_nil, occurrenceAt]

variable {exceptions : List PacedTrainException}

theorem occurrenceAt_index {i : ℕ} (h : s.occurrenceAt calendar exceptions i = some o) :
    o.1.index = some i ∧ o.1.createdKey = none := by
  rw [occurrenceAt] at h
  split at h
  · obtain ⟨t, -, ho⟩ := bind_eq_some_iff.mp h
    cases ho
    exact ⟨rfl, rfl⟩
  · obtain ⟨occurrence, -, rfl⟩ := map_eq_some_iff.mp h
    exact ⟨rfl, rfl⟩

/-- An occurrence that comes from an exception comes from one that modifies the index. -/
theorem occurrenceAt_exceptionKey {i : ℕ}
    (h : s.occurrenceAt calendar exceptions i = some o) {key : String} (hkey : o.1.exceptionKey = some key) :
    ∃ e ∈ exceptions, e.Modifies i ∧ e.key = key := by
  rw [occurrenceAt] at h
  split at h
  · obtain ⟨t, -, ho⟩ := bind_eq_some_iff.mp h
    cases ho
    exact nomatch hkey
  · next e hlast =>
    obtain ⟨occurrence, -, rfl⟩ := map_eq_some_iff.mp h
    obtain ⟨hmem, hmodifies⟩ := mem_filter.mp (mem_of_getLast? hlast)
    exact ⟨e, hmem, of_decide_eq_true hmodifies, Option.some.inj hkey⟩

/-! ### The loop over the modified exceptions -/

theorem baseOccurrence_isSome_iff {i : ℕ} : (s.baseOccurrence calendar i).isSome ↔
    (s.getOccurrenceStartTime calendar i).isSome := by
  rw [baseOccurrence]
  cases s.getOccurrenceStartTime calendar i <;> rfl

variable {e : PacedTrainException}

/-- Only the start time of the base index can be missing. -/
theorem applyException_isSome
    (h : ∀ i, e.exceptionType = .Modified i → (s.getOccurrenceStartTime calendar i).isSome) :
    ∃ occurrence, s.applyException calendar e = some occurrence := by
  rw [applyException]
  cases e.changeGroups.startTime with
  | some startTime => exact ⟨_, rfl⟩
  | none =>
    cases htype : e.exceptionType with
    | Created => exact ⟨_, rfl⟩
    | Modified i =>
      obtain ⟨t, ht⟩ := isSome_iff_exists.mp (h i htype)
      simp only [ht]
      exact ⟨_, rfl⟩

/-- What the loop has done after some exceptions. -/
structure Applied (calendar : Calendar) (s : TrainSchedule) (n : ℕ)
    (exceptions : List PacedTrainException) (p : Pending) : Prop where
  length : p.occurrences.length = n
  occurrence : ∀ i < n, p.occurrences[i]? = s.occurrenceAt calendar exceptions i
  toRemove_length : p.toRemove.length = n
  toRemove : ∀ i < n, p.toRemove[i]? = some (decide (∃ e ∈ exceptions, e.Disables i))

variable {p : Pending} {n : ℕ}

theorem Applied.pass (h : Applied calendar s n exceptions p)
    (hpass : ∀ i < n, e.exceptionType ≠ .Modified i) : Applied calendar s n (exceptions ++ [e]) p where
  length := h.length
  occurrence i hi := by
    rw [occurrenceAt_concat, if_neg fun hmodifies => hpass i hi hmodifies.1, h.occurrence i hi]
  toRemove_length := h.toRemove_length
  toRemove i hi := by
    have hne : ¬ e.Disables i := fun hdisables => hpass i hi hdisables.1
    simp only [h.toRemove i hi, mem_append, mem_singleton, or_and_right, exists_or,
      exists_eq_left, hne, or_false]

theorem Applied.disable {n i : ℕ} (h : Applied calendar s n exceptions p) (hi : i < n)
    (hdisables : e.Disables i) :
    Applied calendar s n (exceptions ++ [e]) { p with toRemove := p.toRemove.set i true } where
  length := h.length
  occurrence j hj := by
    have hne : ¬ e.Modifies j := fun hmodifies => nomatch hdisables.2.symm.trans hmodifies.2
    rw [occurrenceAt_concat, if_neg hne, h.occurrence j hj]
  toRemove_length := by rw [length_set, h.toRemove_length]
  toRemove j hj := by
    simp only [mem_append, mem_singleton, or_and_right, exists_or, exists_eq_left]
    rcases eq_or_ne i j with rfl | hne
    · rw [getElem?_set_self (h.toRemove_length ▸ hi), decide_eq_true (.inr hdisables)]
    · have hother : ¬ e.Disables j := fun hj' =>
        hne (inj (hdisables.1.symm.trans hj'.1))
      simp only [getElem?_set_ne hne, h.toRemove j hj, hother, or_false]

theorem Applied.modify {n i : ℕ} (h : Applied calendar s n exceptions p) (hi : i < n)
    (hmodifies : e.Modifies i) {occurrence : TrainOccurrence}
    (hoccurrence : s.applyException calendar e = some occurrence) :
    Applied calendar s n (exceptions ++ [e])
      { p with occurrences := p.occurrences.set i (.Modified s.id i e.key, occurrence) } where
  length := by rw [length_set, h.length]
  occurrence j hj := by
    rw [occurrenceAt_concat]
    rcases eq_or_ne i j with rfl | hne
    · rw [if_pos hmodifies, modifiedOccurrence, hoccurrence, getElem?_set_self (h.length ▸ hi)]
      rfl
    · have hother : ¬ e.Modifies j := fun hj' =>
        hne (inj (hmodifies.1.symm.trans hj'.1))
      rw [if_neg hother, getElem?_set_ne hne, h.occurrence j hj]
  toRemove_length := h.toRemove_length
  toRemove j hj := by
    have hne : ¬ e.Disables j := fun hdisables => nomatch hmodifies.2.symm.trans hdisables.2
    simp only [h.toRemove j hj, mem_append, mem_singleton, or_and_right, exists_or,
      exists_eq_left, hne, or_false]

/-- A turn of the loop. -/
theorem Applied.applyModified (h : Applied calendar s n exceptions p)
    (hstart : ∀ i < n, (s.getOccurrenceStartTime calendar i).isSome) (e : PacedTrainException) :
    ∃ p', s.applyModified calendar p e = some p' ∧ Applied calendar s n (exceptions ++ [e]) p' := by
  cases htype : e.exceptionType with
  | Created =>
    refine ⟨p, by rw [TrainSchedule.applyModified, htype], h.pass fun i _ hi => ?_⟩
    exact nomatch htype.symm.trans hi
  | Modified i =>
    simp only [TrainSchedule.applyModified, htype, h.length]
    by_cases hi : i < n
    · rw [if_pos hi]
      cases hdisabled : e.disabled with
      | true => exact ⟨_, rfl, h.disable hi ⟨htype, hdisabled⟩⟩
      | false =>
        obtain ⟨occurrence, hoccurrence⟩ := applyException_isSome (e := e) fun j hj =>
          inj (htype.symm.trans hj) ▸ hstart i hi
        refine ⟨_, by rw [hoccurrence]; rfl, h.modify hi ⟨htype, hdisabled⟩ hoccurrence⟩
    · rw [if_neg hi]
      refine ⟨p, rfl, h.pass fun j hj hjtype => hi ?_⟩
      exact inj (htype.symm.trans hjtype) ▸ hj

/-- The whole loop. -/
theorem Applied.foldlM (hstart : ∀ i < n, (s.getOccurrenceStartTime calendar i).isSome) :
    ∀ (rest : List PacedTrainException) {exceptions : List PacedTrainException} {p : Pending},
    Applied calendar s n exceptions p → ∃ p',
      rest.foldlM (s.applyModified calendar) p = some p' ∧ Applied calendar s n (exceptions ++ rest) p'
  | [], exceptions, p, h => ⟨p, rfl, by rwa [append_nil]⟩
  | e :: rest, exceptions, p, h => by
    obtain ⟨p₁, hp₁, h₁⟩ := h.applyModified hstart e
    obtain ⟨p₂, hp₂, h₂⟩ := foldlM hstart rest h₁
    refine ⟨p₂, by rw [foldlM_cons, hp₁]; exact hp₂, ?_⟩
    rwa [append_assoc] at h₂

/-! ### All the occurrences -/

/-- What a list of marks keeps of a list of the same length, by index. -/
theorem kept_eq_filterMap {α : Type} : ∀ {as : List α} {marks : List Bool}, as.length = marks.length →
    ((as.zip marks).filter (!·.2)).map (·.1) =
      (range as.length).filterMap fun i => if marks[i]? = some false then as[i]? else none
  | [], [], _ => rfl
  | a :: as, mark :: marks, h => by
    have ih := kept_eq_filterMap (Nat.succ.inj h)
    rw [length_cons, range_succ_eq_map, filterMap_cons, filterMap_map]
    cases mark <;> simpa using ih

/-- The base indices that no exception disables. -/
def enabledIndices (n : ℕ) (exceptions : List PacedTrainException) : List ℕ :=
  (List.range n).filter fun i => ¬ ∃ e ∈ exceptions, e.Disables i

theorem Applied.kept (h : Applied calendar s n s.exceptions p) :
    ((p.occurrences.zip p.toRemove).filter (!·.2)).map (·.1) =
      (enabledIndices n s.exceptions).filterMap (s.occurrenceAt calendar s.exceptions) := by
  rw [kept_eq_filterMap (h.length.trans h.toRemove_length.symm), h.length, enabledIndices, filterMap_filter]
  refine filterMap_congr fun i hi => ?_
  have hi := mem_range.mp hi
  rw [h.toRemove i hi, h.occurrence i hi]
  by_cases hdisabled : ∃ e ∈ s.exceptions, e.Disables i
  · simp [hdisabled]
  · simp [hdisabled]

theorem getCreatedOccurrencesExceptions_eq (calendar : Calendar) (s : TrainSchedule) : ∃ created,
    s.getCreatedOccurrencesExceptions calendar = some created ∧
      created.map (·.1) = (s.exceptions.filter fun e => e.exceptionType = .Created).map
        fun e => .Created s.id e.key := by
  have hall : ∀ {es : List PacedTrainException}, (∀ e ∈ es, e.exceptionType = .Created) →
      ∃ created, es.mapM (fun e => do
        let occurrence ← s.applyException calendar e
        return (OccurrenceId.Created s.id e.key, occurrence)) = some created ∧
        created.map (·.1) = es.map fun e => .Created s.id e.key := by
    intro es
    induction es with
    | nil => exact fun _ => ⟨[], rfl, rfl⟩
    | cons e es ih =>
      intro hcreated
      obtain ⟨he, hes⟩ := forall_mem_cons.mp hcreated
      obtain ⟨created, hmapM, hids⟩ := ih hes
      obtain ⟨occurrence, hoccurrence⟩ : ∃ occurrence, s.applyException calendar e = some occurrence :=
        applyException_isSome fun i hi => nomatch he.symm.trans hi
      refine ⟨(.Created s.id e.key, occurrence) :: created, ?_, ?_⟩
      · rw [mapM_cons, hmapM, hoccurrence]
        rfl
      · rw [map_cons, map_cons, hids]
  exact hall fun e he => of_decide_eq_true (mem_filter.mp he).2

variable {n : ℕ} (hn : s.numBaseOccurrences = some n)

include hn in
theorem getBaseOccurrences_applied (hstart : ∀ i < n, (s.getOccurrenceStartTime calendar i).isSome) :
    ∃ base, s.getBaseOccurrences calendar = some base ∧
      Applied calendar s n [] ⟨base, replicate base.length false⟩ := by
  obtain ⟨base, hbase⟩ : ∃ base, (range n).mapM (s.baseOccurrence calendar) = some base := by
    refine Partial.mapM_exists fun i hi => isSome_iff_exists.mp ?_
    exact baseOccurrence_isSome_iff.mpr (hstart i (mem_range.mp hi))
  have hlength : base.length = n := by rw [Partial.length_of_mapM hbase, length_range]
  refine ⟨base, by rw [getBaseOccurrences, hn]; exact hbase, hlength, fun i hi => ?_, ?_, fun i hi => ?_⟩
  · rw [Partial.getElem?_of_mapM hbase, getElem?_range hi]
    rfl
  · rw [length_replicate, hlength]
  · rw [getElem?_replicate_of_lt (hlength ▸ hi)]
    simp

include hn in
/-- What `iter_occurrences` yields: what stands at the indices that are not disabled, and what the exceptions
    create, in the order of the start times. -/
theorem iterOccurrences_eq (hstart : ∀ i < n, (s.getOccurrenceStartTime calendar i).isSome) :
    (∀ i < n, (s.occurrenceAt calendar s.exceptions i).isSome) ∧
    ∃ created, created.map (·.1) = (s.exceptions.filter fun e => e.exceptionType = .Created).map
        (fun e => .Created s.id e.key) ∧ s.iterOccurrences calendar = some
        (((enabledIndices n s.exceptions).filterMap (s.occurrenceAt calendar s.exceptions) ++
          created).insertionSort fun a b => a.2.startTime ≤ b.2.startTime) := by
  obtain ⟨base, hbase, hnone⟩ := getBaseOccurrences_applied hn hstart
  obtain ⟨p, hp, happlied⟩ := hnone.foldlM hstart s.exceptions
  rw [nil_append] at happlied
  obtain ⟨created, hcreated, hids⟩ := s.getCreatedOccurrencesExceptions_eq calendar
  refine ⟨fun i hi => ?_, created, hids, ?_⟩
  · rw [← happlied.occurrence i hi, getElem?_eq_getElem (happlied.length ▸ hi)]
    rfl
  · simp only [iterOccurrences, hbase, hp, hcreated, Option.bind_eq_bind, Option.bind_some,
      happlied.kept, Option.pure_def]

include hn in
theorem startTime_of_iterOccurrences (h : (s.iterOccurrences calendar).isSome) :
    ∀ i < n, (s.getOccurrenceStartTime calendar i).isSome := by
  intro i hi
  obtain ⟨occurrences, hoccurrences⟩ := isSome_iff_exists.mp h
  simp only [iterOccurrences, getBaseOccurrences, hn, Option.bind_eq_bind, Option.bind_some,
    bind_eq_some_iff] at hoccurrences
  obtain ⟨base, hbase, -⟩ := hoccurrences
  obtain ⟨o, ho⟩ := Partial.exists_of_mapM hbase (mem_range.mpr hi)
  exact baseOccurrence_isSome_iff.mp (isSome_of_eq_some ho)

/-- The sort by start time. -/
theorem sortByStartTime_spec {unsorted occurrences : List (OccurrenceId × TrainOccurrence)}
    (h : occurrences = unsorted.insertionSort fun a b => a.2.startTime ≤ b.2.startTime) :
    occurrences.Perm unsorted ∧ occurrences.Pairwise fun a b => a.2.startTime ≤ b.2.startTime := by
  exact ⟨h ▸ perm_insertionSort _ _, h ▸ pairwise_insertionSort _ _⟩

/-- Ids are distinct when no index and no key of a created occurrence comes twice. -/
theorem nodup_ids {ids : List OccurrenceId} (hindex : (ids.filterMap (·.index)).Nodup)
    (hkey : (ids.filterMap (·.createdKey)).Nodup) : ids.Nodup := by
  refine ((pairwise_filterMap.mp hindex).and (pairwise_filterMap.mp hkey)).imp ?_
  rintro id _ ⟨hindex, hkey⟩ rfl
  cases id with
  | Base _ i => exact hindex i rfl i rfl rfl
  | Modified _ i _ => exact hindex i rfl i rfl rfl
  | Created _ key => exact hkey key rfl key rfl rfl

/-- What is expected of the occurrences of a schedule with `n` base occurrences. -/
structure Yields (s : TrainSchedule) (n : ℕ) (occurrences : List (OccurrenceId × TrainOccurrence)) :
    Prop where
  sorted : occurrences.Pairwise fun a b => a.2.startTime ≤ b.2.startTime
  distinct : (occurrences.map (·.1)).Nodup
  /-- One for each base index that no exception disables. -/
  base : (occurrences.filterMap (·.1.index)).Perm (enabledIndices n s.exceptions)
  /-- One for each exception that creates one, disabled or not. -/
  created : (occurrences.filterMap (·.1.createdKey)).Perm
    ((s.exceptions.filter fun e => e.exceptionType = .Created).map (·.key))
  /-- None for a modified exception that is disabled. -/
  disabled : ∀ e ∈ s.exceptions, ∀ i, e.Disables i → ∀ o ∈ occurrences, o.1.exceptionKey ≠ some e.key

/-- The base indices of what stands at some indices. -/
theorem filterMap_index_occurrenceAt {indices : List ℕ}
    (h : ∀ i ∈ indices, (s.occurrenceAt calendar exceptions i).isSome) :
    (indices.filterMap (s.occurrenceAt calendar exceptions)).filterMap (·.1.index) = indices := by
  rw [filterMap_filterMap]
  have hindex : ∀ i ∈ indices, ((s.occurrenceAt calendar exceptions i).bind fun o => o.1.index) =
      some i := by
    intro i hi
    obtain ⟨o, ho⟩ := isSome_iff_exists.mp (h i hi)
    rw [ho, Option.bind_some, (occurrenceAt_index ho).1]
  rw [filterMap_congr hindex, filterMap_some]

theorem filterMap_createdKey_occurrenceAt {indices : List ℕ} :
    (indices.filterMap (s.occurrenceAt calendar exceptions)).filterMap (·.1.createdKey) = [] := by
  refine filterMap_eq_nil_iff.mpr fun o ho => ?_
  obtain ⟨i, -, hi⟩ := mem_filterMap.mp ho
  exact (occurrenceAt_index hi).2

/-- Two exceptions with one key are the same. -/
theorem eq_of_key_eq (hkeys : (s.exceptions.map (·.key)).Nodup) {e e' : PacedTrainException}
    (he : e ∈ s.exceptions) (he' : e' ∈ s.exceptions) (hkey : e.key = e'.key) : e = e' :=
  inj_on_of_nodup_map hkeys he he' hkey

/-- What the ids of the created occurrences say. -/
structure CreatedFrom (s : TrainSchedule) (created : List (OccurrenceId × TrainOccurrence)) : Prop where
  index : created.filterMap (·.1.index) = []
  createdKey : created.filterMap (·.1.createdKey) =
    (s.exceptions.filter fun e => e.exceptionType = .Created).map (·.key)
  exceptionKey : ∀ o ∈ created, ∃ e ∈ s.exceptions, e.exceptionType = .Created ∧
    o.1.exceptionKey = some e.key

theorem createdFrom_of_ids {created : List (OccurrenceId × TrainOccurrence)}
    (hids : created.map (·.1) = (s.exceptions.filter fun e => e.exceptionType = .Created).map
      fun e => .Created s.id e.key) : s.CreatedFrom created where
  index := by
    have hmap := filterMap_map (l := created) (f := fun o => o.1) (g := OccurrenceId.index)
    rw [hids, filterMap_map] at hmap
    refine hmap.symm.trans (filterMap_eq_nil_iff.mpr fun e _ => rfl)
  createdKey := by
    have hmap := filterMap_map (l := created) (f := fun o => o.1) (g := OccurrenceId.createdKey)
    rw [hids, filterMap_map] at hmap
    refine hmap.symm.trans ?_
    rw [← filterMap_eq_map]
    rfl
  exceptionKey o ho := by
    have hmem : o.1 ∈ created.map (·.1) := mem_map_of_mem ho
    rw [hids] at hmem
    obtain ⟨e, he, hid⟩ := mem_map.mp hmem
    obtain ⟨he, hcreated⟩ := mem_filter.mp he
    exact ⟨e, he, of_decide_eq_true hcreated, by rw [← hid]; rfl⟩

include hn in
theorem iterOccurrences_yields
    (hkeys : (s.exceptions.map (·.key)).Nodup) {occurrences : List (OccurrenceId × TrainOccurrence)}
    (h : s.iterOccurrences calendar = some occurrences) : s.Yields n occurrences := by
  have hstart := startTime_of_iterOccurrences hn (isSome_of_eq_some h)
  obtain ⟨hat, created, hids, hsorted⟩ := iterOccurrences_eq hn hstart
  have hcreated := createdFrom_of_ids hids
  have hkept : ∀ i ∈ enabledIndices n s.exceptions, (s.occurrenceAt calendar s.exceptions i).isSome :=
    fun i hi => hat i (mem_range.mp (mem_filter.mp hi).1)
  -- the sort only reorders them
  obtain ⟨hperm, hpairwise⟩ := sortByStartTime_spec (Option.some.inj (h.symm.trans hsorted))
  have hbase : (occurrences.filterMap (·.1.index)).Perm (enabledIndices n s.exceptions) := by
    refine (hperm.filterMap _).trans (.of_eq ?_)
    rw [filterMap_append, filterMap_index_occurrenceAt hkept, hcreated.index, append_nil]
  have hcreatedKey : (occurrences.filterMap (·.1.createdKey)).Perm
      ((s.exceptions.filter fun e => e.exceptionType = .Created).map (·.key)) := by
    refine (hperm.filterMap _).trans (.of_eq ?_)
    rw [filterMap_append, filterMap_createdKey_occurrenceAt, hcreated.createdKey, nil_append]
  refine ⟨hpairwise, nodup_ids ?_ ?_, hbase, hcreatedKey, ?_⟩
  · rw [filterMap_map]
    exact hbase.nodup_iff.mpr (nodup_range.filter _)
  · rw [filterMap_map]
    exact hcreatedKey.nodup_iff.mpr (hkeys.sublist (filter_sublist.map _))
  · intro e he i hdisables o ho hkey
    rcases mem_append.mp (hperm.mem_iff.mp ho) with ho | ho
    · obtain ⟨j, -, hj⟩ := mem_filterMap.mp ho
      obtain ⟨e', he', hmodifies, hkey'⟩ := occurrenceAt_exceptionKey hj hkey
      obtain rfl := eq_of_key_eq hkeys he' he hkey'
      exact nomatch hmodifies.2.symm.trans hdisables.2
    · obtain ⟨e', he', htype, hkey'⟩ := hcreated.exceptionKey o ho
      obtain rfl := eq_of_key_eq hkeys he' he (Option.some.inj (hkey'.symm.trans hkey))
      exact nomatch htype.symm.trans hdisables.1

end TrainSchedule

end Osrd.Timetable
