import Osrd.Lib.Partial
import Mathlib.Data.Rat.Defs
import Mathlib.Data.List.Nodup
import Mathlib.Algebra.Order.Ring.Nat

/-! Model of the train schedules that the API takes (`editoast/schemas/src/paced_train.rs`,
    `train_schedule.rs` and `primitives/duration.rs`): how a document is checked when it is read.

    A document is what the derived deserialization gives, with the two durations of the pace still in their
    ISO 8601 form. Durations are in milliseconds, instants in nanoseconds. A reading ends with a value,
    with an error that has a message, or with a panic. -/

namespace Osrd.Timetable

open Partial List

/-! ### Readings -/

/-- How a reading ends without a value. -/
inductive Stop
  | error (message : String)
  | panic
deriving DecidableEq

/-- A value that is read, with all checks. -/
abbrev Reading (α : Type) : Type := Except Stop α

/-- A check that ends the reading with a message. -/
def require (c : Prop) [Decidable c] (message : String) : Reading Unit :=
  if c then .ok () else .error (.error message)

theorem require_eq_ok {c : Prop} [Decidable c] {message : String} : require c message = .ok () ↔ c := by
  rw [require]
  split
  · next hc => exact ⟨fun _ => hc, fun _ => rfl⟩
  · next hc => exact ⟨fun h => (nomatch h), fun h => absurd h hc⟩

theorem require_ne_panic {c : Prop} [Decidable c] {message : String} :
    require c message ≠ .error .panic := by
  rw [require]
  split
  · exact fun h => nomatch h
  · exact fun h => nomatch h

/-! ### Durations -/

/-- What the ISO 8601 parser gives. -/
inductive IsoDuration
  | YMDHMS (year month day hour minute second millisecond : UInt32)
  | Weeks (weeks : UInt32)

/-- The longest duration of the time library. -/
def maxDuration : ℕ := 2 ^ 63 - 1

/-- A number of units (of so many milliseconds), as `try_days`, `try_hours` and the like. -/
def tryUnits (unit : ℕ) (count : UInt32) (message : String) : Reading ℕ :=
  if count.toNat * unit ≤ maxDuration then .ok (count.toNat * unit) else .error (.error message)

/-- A sum that is too long panics. -/
def addDuration (a b : ℕ) : Reading ℕ := if a + b ≤ maxDuration then .ok (a + b) else .error .panic

/-- The units are added from the longest to the shortest. -/
def PositiveDuration.deserialize : IsoDuration → Reading ℕ
  | .YMDHMS year month day hour minute second millisecond => do
      require (year = 0 ∧ month = 0) "years and months are not supported"
      let days ← tryUnits 86400000 day "value for days is not valid"
      let hours ← tryUnits 3600000 hour "value for hours is not valid"
      let sum ← addDuration days hours
      let minutes ← tryUnits 60000 minute "value for minutes is not valid"
      let sum ← addDuration sum minutes
      let seconds ← tryUnits 1000 second "value for seconds is not valid"
      let sum ← addDuration sum seconds
      let milliseconds ← tryUnits 1 millisecond "value for millisecond is not valid"
      addDuration sum milliseconds
  | .Weeks weeks => tryUnits 604800000 weeks "value for weeks is not valid"

/-- The whole seconds of a duration. -/
def numSeconds (duration : ℕ) : ℕ := duration / 1000

/-! ### Train occurrences -/

/-- The comfort of the rolling stock. -/
inductive Comfort
  | Standard
  | AirConditioning
  | Heating
deriving DecidableEq

/-- How the margins are distributed. -/
inductive Distribution
  | Standard
  | Mareco
deriving DecidableEq

/-- The signal that a train is received on. -/
inductive ReceptionSignal
  | Open
  | Stop
  | ShortSlipStop
deriving DecidableEq

inductive TrainMainCategory
  | HighSpeedTrain
  | IntercityTrain
  | RegionalTrain
  | NightTrain
  | CommuterTrain
  | FreightTrain
  | FastFreightTrain
  | TramTrain
  | TouristicTrain
  | WorkTrain
deriving DecidableEq

/-- A main category, or a sub-category by its code. -/
inductive TrainCategory
  | Main (mainCategory : TrainMainCategory)
  | Sub (subCategoryCode : String)
deriving DecidableEq

/-- Of the items of a path only their ids are read. -/
structure PathItem where
  id : String

/-- What is scheduled at an item of the path. -/
structure ScheduleItem where
  atItem : String
  arrival : Option ℕ
  stopFor : Option ℕ
  receptionSignal : ReceptionSignal

/-- A margin, as a share of the time or by the distance. -/
inductive MarginValue
  | Percentage (value : ℚ)
  | MinPer100Km (value : ℚ)

/-- The values between the boundaries, which are items of the path. -/
structure Margins where
  boundaries : List String
  values : List MarginValue

/-- A restriction between two items of the path. -/
structure PowerRestrictionItem where
  fromItem : String
  toItem : String
  value : String

/-- The options of the simulation. -/
structure TrainScheduleOptions where
  useElectricalProfiles : Bool
  useSpeedLimitsForSimulation : Bool
  stopsAtEndOfBlock : Bool

/-- A train, as it is before its exceptions. -/
structure TrainOccurrence where
  trainName : String
  labels : List String
  rollingStockName : String
  startTime : ℤ
  path : List PathItem
  schedule : List ScheduleItem
  margins : Margins
  initialSpeed : ℚ
  comfort : Comfort
  constraintDistribution : Distribution
  speedLimitTag : Option String
  powerRestrictions : List PowerRestrictionItem
  options : TrainScheduleOptions
  category : Option TrainCategory

/-- A train that does not stop is received on an open signal. -/
def ScheduleItem.deserialize (item : ScheduleItem) : Reading Unit :=
  require (item.receptionSignal = .Open ∨ item.stopFor.isSome)
    "Field reception_signal must be `Open` if stop_for is None"

/-- The boundaries separate the values. -/
def Margins.deserialize (margins : Margins) : Reading Unit :=
  require (margins.boundaries.length + 1 = margins.values.length)
    "It's expected to have one more value than boundaries"

variable (o : TrainOccurrence)

namespace TrainOccurrence

/-- The ids that the other fields refer to. -/
def pathIds : List String := o.path.map (·.id)

/-- The first item of a path without items panics. -/
def checkFirstPoint : Reading Unit :=
  match o.path with
  | [] => .error .panic
  | first :: _ =>
      require (∀ item ∈ o.schedule, item.atItem = first.id → item.arrival = none)
        "First path waypoint can't have an arrival time"

/-- The checks of the fields, then those of the references to the path. -/
def checkReferences : Reading Unit := do
  o.schedule.forM ScheduleItem.deserialize
  o.margins.deserialize
  require o.pathIds.Nodup "Duplicate path waypoint ids"
  o.schedule.forM fun item => require (item.atItem ∈ o.pathIds)
    ("Invalid schedule, path waypoint '" ++ item.atItem ++ "' not found")
  o.margins.boundaries.forM fun boundary => require (boundary ∈ o.pathIds)
    ("Invalid boundary, path waypoint '" ++ boundary ++ "' not found")
  o.powerRestrictions.forM fun restriction => do
    require (restriction.fromItem ∈ o.pathIds)
      ("Invalid power restriction, path waypoint '" ++ restriction.fromItem ++ "' not found")
    require (restriction.toItem ∈ o.pathIds)
      ("Invalid power restriction, path waypoint '" ++ restriction.toItem ++ "' not found")
  require (o.schedule.map (·.atItem)).Nodup "Schedule points at the same location"

def deserialize : Reading Unit := do
  o.checkReferences
  o.checkFirstPoint

end TrainOccurrence

/-! ### Exceptions -/

/-- An exception changes an occurrence of the pace, or adds one. -/
inductive ExceptionType
  | Modified (occurrenceIndex : ℕ)
  | Created
deriving DecidableEq

/-- Another rolling stock. -/
structure RollingStockChangeGroup where
  rollingStockName : String
  comfort : Comfort

/-- Another path, and all that refers to its items. -/
structure PathAndScheduleChangeGroup where
  path : List PathItem
  schedule : List ScheduleItem
  margins : Margins
  powerRestrictions : List PowerRestrictionItem

/-- A group that has one field is that field. -/
structure ChangeGroups where
  trainName : Option String
  rollingStock : Option RollingStockChangeGroup
  rollingStockCategory : Option (Option TrainCategory)
  labels : Option (List String)
  speedLimitTag : Option (Option String)
  startTime : Option ℤ
  constraintDistribution : Option Distribution
  initialSpeed : Option ℚ
  options : Option TrainScheduleOptions
  pathAndSchedule : Option PathAndScheduleChangeGroup

/-- An occurrence that is not as the others. -/
structure PacedTrainException where
  key : String
  exceptionType : ExceptionType
  disabled : Bool
  changeGroups : ChangeGroups

/-! ### Paced trains -/

/-- An occurrence at each interval of the time window. -/
structure Paced where
  timeWindow : ℕ
  interval : ℕ
  exceptions : List PacedTrainException

/-- A pace before its durations are read. -/
structure PacedDocument where
  timeWindow : IsoDuration
  interval : IsoDuration
  exceptions : List PacedTrainException

namespace PacedTrain

/-- A train schedule with a pace, or for one train. -/
structure TrainSchedule where
  trainOccurrence : TrainOccurrence
  paced : Option Paced

/-- A train schedule before it is read. -/
structure Document where
  trainOccurrence : TrainOccurrence
  paced : Option PacedDocument

/-- Reads the durations of a pace. -/
def readPaced (document : PacedDocument) : Reading Paced := do
  let timeWindow ← PositiveDuration.deserialize document.timeWindow
  let interval ← PositiveDuration.deserialize document.interval
  return ⟨timeWindow, interval, document.exceptions⟩

/-- The derived reading: the pace first, then the fields of the occurrence. -/
def readFields (document : Document) : Reading TrainSchedule := do
  let paced ← match document.paced with
    | none => pure none
    | some paced => some <$> readPaced paced
  document.trainOccurrence.deserialize
  return ⟨document.trainOccurrence, paced⟩

/-- The scheduled arrival at the first item of the path. -/
def arrivalTimeOnFirstPathItem : Option ℕ := do
  let item ← o.schedule.find? fun item => o.path.head?.any fun first => item.atItem = first.id
  item.arrival

/-- A train that arrives at its origin arrives there at once. -/
def checkArrival : Reading Unit :=
  match arrivalTimeOnFirstPathItem o with
  | none => .ok ()
  | some arrival => require (arrival = 0)
      ("Scheduled arrival time on the origin of the path is necessary 0 seconds, but is: '" ++
        toString (numSeconds arrival) ++ "'")

/-- The loop over the exceptions, with the keys it has seen. -/
def checkKeys : (seenKeys : List String) → List PacedTrainException → Reading Unit
  | _, [] => .ok ()
  | seenKeys, e :: exceptions => do
      require (e.key ∉ seenKeys) ("Duplicate exception key: '" ++ e.key ++ "'")
      checkKeys (e.key :: seenKeys) exceptions

/-- A division by zero panics. -/
def divide (a b : ℕ) : Reading ℕ := if b = 0 then .error .panic else .ok (a / b)

/-- The check compares with the number of occurrences itself. -/
def checkIndex (numOccurrences : ℕ) (e : PacedTrainException) : Reading Unit :=
  match e.exceptionType with
  | .Modified occurrenceIndex => require (¬ numOccurrences < occurrenceIndex)
      ("Modified exception '" ++ e.key ++ "' references invalid occurrence index " ++
        toString occurrenceIndex)
  | .Created => .ok ()

/-- The keys are checked before the pace is divided. -/
def checkPace (paced : Paced) : Reading Unit := do
  checkKeys [] paced.exceptions
  let numOccurrences ← divide (numSeconds paced.timeWindow) (numSeconds paced.interval)
  paced.exceptions.forM (checkIndex numOccurrences)

def deserialize (document : Document) : Reading TrainSchedule := do
  let trainSchedule ← readFields document
  checkArrival trainSchedule.trainOccurrence
  match trainSchedule.paced with
  | none => pure ()
  | some paced => checkPace paced
  return trainSchedule

end PacedTrain

/-! ### What is accepted, and what panics -/

namespace TrainOccurrence

/-- The checks that do not look at the first item of the path. -/
structure WellFormed (o : TrainOccurrence) : Prop where
  signals : ∀ item ∈ o.schedule, item.receptionSignal = .Open ∨ item.stopFor.isSome
  margins : o.margins.boundaries.length + 1 = o.margins.values.length
  distinct : o.pathIds.Nodup
  schedule_known : ∀ item ∈ o.schedule, item.atItem ∈ o.pathIds
  boundaries_known : ∀ boundary ∈ o.margins.boundaries, boundary ∈ o.pathIds
  restrictions_known : ∀ restriction ∈ o.powerRestrictions,
    restriction.fromItem ∈ o.pathIds ∧ restriction.toItem ∈ o.pathIds
  points_distinct : (o.schedule.map (·.atItem)).Nodup

/-- No arrival is scheduled at the first item of the path. -/
def DepartsFirst : Prop :=
  ∃ first, o.path.head? = some first ∧
    ∀ item ∈ o.schedule, item.atItem = first.id → item.arrival = none

variable (o : TrainOccurrence)

theorem checkReferences_eq_ok : o.checkReferences = .ok () ↔ o.WellFormed := by
  simp only [checkReferences, Margins.deserialize, check_bind_eq_ok, forM_eq_ok,
    ScheduleItem.deserialize, require_eq_ok]
  constructor
  · rintro ⟨h₁, h₂, h₃, h₄, h₅, h₆, h₇⟩
    exact ⟨h₁, h₂, h₃, h₄, h₅, h₆, h₇⟩
  · rintro ⟨h₁, h₂, h₃, h₄, h₅, h₆, h₇⟩
    exact ⟨h₁, h₂, h₃, h₄, h₅, h₆, h₇⟩

theorem checkReferences_ne_panic : o.checkReferences ≠ .error .panic := by
  have hitems : ∀ {α : Type} {as : List α} {f : α → Reading Unit}, (∀ a, f a ≠ .error .panic) →
      as.forM f ≠ .error .panic := fun hf => forM_ne_error fun a _ => hf a
  have hrestriction : ∀ restriction : PowerRestrictionItem, (do
      require (restriction.fromItem ∈ o.pathIds)
        ("Invalid power restriction, path waypoint '" ++ restriction.fromItem ++ "' not found")
      require (restriction.toItem ∈ o.pathIds)
        ("Invalid power restriction, path waypoint '" ++ restriction.toItem ++ "' not found")) ≠
        Except.error Stop.panic := by
    intro restriction
    rw [ne_eq, check_bind_eq_error]
    rintro (h | ⟨_, h⟩) <;> exact require_ne_panic h
  simp only [checkReferences, ne_eq, check_bind_eq_error]
  rintro (h | ⟨_, h | ⟨_, h | ⟨_, h | ⟨_, h | ⟨_, h | ⟨_, h⟩⟩⟩⟩⟩⟩)
  · exact hitems (fun _ => require_ne_panic) h
  · exact require_ne_panic h
  · exact require_ne_panic h
  · exact hitems (fun _ => require_ne_panic) h
  · exact hitems (fun _ => require_ne_panic) h
  · exact hitems hrestriction h
  · exact require_ne_panic h

theorem checkFirstPoint_eq_ok : o.checkFirstPoint = .ok () ↔ o.DepartsFirst := by
  rw [checkFirstPoint, DepartsFirst]
  cases o.path with
  | nil => exact ⟨fun h => (nomatch h), fun ⟨_, h, _⟩ => (nomatch h)⟩
  | cons first path =>
    rw [require_eq_ok]
    constructor
    · exact fun h => ⟨first, rfl, h⟩
    · rintro ⟨first', hfirst, h⟩
      exact Option.some.inj hfirst ▸ h

theorem checkFirstPoint_eq_panic : o.checkFirstPoint = .error .panic ↔ o.path = [] := by
  rw [checkFirstPoint]
  cases o.path with
  | nil => exact ⟨fun _ => rfl, fun _ => rfl⟩
  | cons first path => exact ⟨fun h => absurd h require_ne_panic, fun h => (nomatch h)⟩

theorem deserialize_eq_ok : o.deserialize = .ok () ↔ o.WellFormed ∧ o.DepartsFirst := by
  rw [deserialize, check_bind_eq_ok, checkReferences_eq_ok, checkFirstPoint_eq_ok]

/-- What panics is a path without items that nothing refers to. -/
theorem deserialize_eq_panic : o.deserialize = .error .panic ↔ o.WellFormed ∧ o.path = [] := by
  rw [deserialize, check_bind_eq_error, checkReferences_eq_ok, checkFirstPoint_eq_panic]
  exact or_iff_right o.checkReferences_ne_panic

end TrainOccurrence

variable {paced : Paced}

namespace PacedTrain

/-- After the occurrence has been accepted the check of the first arrival has nothing to refuse. -/
theorem checkArrival_of_departsFirst {o : TrainOccurrence} (h : o.DepartsFirst) :
    checkArrival o = .ok () := by
  obtain ⟨first, hfirst, hnone⟩ := h
  have harrival : arrivalTimeOnFirstPathItem o = none := by
    rw [arrivalTimeOnFirstPathItem, hfirst]
    cases hfound : o.schedule.find? fun item => (some first).any fun first => item.atItem = first.id with
    | none => rfl
    | some item =>
      have hat : item.atItem = first.id := by simpa using find?_some hfound
      exact hnone item (mem_of_find?_eq_some hfound) hat
  rw [checkArrival, harrival]

theorem checkKeys_eq_ok : ∀ {exceptions : List PacedTrainException} {seen : List String},
    checkKeys seen exceptions = .ok () ↔ (exceptions.map (·.key)).Nodup ∧ ∀ e ∈ exceptions, e.key ∉ seen
  | [], _ => ⟨fun _ => ⟨.nil, fun _ he => (nomatch he)⟩, fun _ => rfl⟩
  | e :: exceptions, seen => by
    rw [checkKeys, check_bind_eq_ok, require_eq_ok, checkKeys_eq_ok, map_cons, nodup_cons, forall_mem_cons]
    simp only [mem_map, mem_cons, not_or, not_exists, not_and]
    constructor
    · rintro ⟨hseen, hnodup, hfresh⟩
      exact ⟨⟨fun e' he' => (hfresh e' he').1, hnodup⟩, hseen, fun e' he' => (hfresh e' he').2⟩
    · rintro ⟨⟨hkey, hnodup⟩, hseen, hfresh⟩
      exact ⟨hseen, hnodup, fun e' he' => ⟨hkey e' he', hfresh e' he'⟩⟩

theorem checkKeys_ne_panic : ∀ {exceptions : List PacedTrainException} {seen : List String},
    checkKeys seen exceptions ≠ .error .panic
  | [], _ => fun h => nomatch h
  | e :: exceptions, seen => by
    rw [checkKeys, ne_eq, check_bind_eq_error]
    rintro (h | ⟨_, h⟩)
    · exact require_ne_panic h
    · exact checkKeys_ne_panic h

theorem divide_eq_ok {a b c : ℕ} : divide a b = .ok c ↔ b ≠ 0 ∧ c = a / b := by
  rw [divide]
  split
  · next hb => exact ⟨fun h => (nomatch h), fun h => absurd hb h.1⟩
  · next hb => exact ⟨fun h => ⟨hb, (Except.ok.inj h).symm⟩, fun h => h.2 ▸ rfl⟩

theorem divide_eq_panic {a b : ℕ} : divide a b = .error .panic ↔ b = 0 := by
  rw [divide]
  split
  · next hb => exact ⟨fun _ => hb, fun _ => rfl⟩
  · next hb => exact ⟨fun h => (nomatch h), fun h => absurd h hb⟩

theorem checkIndex_ne_panic {n : ℕ} (e : PacedTrainException) : checkIndex n e ≠ .error .panic := by
  rw [checkIndex]
  split
  · exact require_ne_panic
  · exact fun h => nomatch h

theorem checkIndex_eq_ok {n : ℕ} {e : PacedTrainException} :
    checkIndex n e = .ok () ↔ ∀ i, e.exceptionType = .Modified i → i ≤ n := by
  rw [checkIndex]
  split
  · next i htype => rw [require_eq_ok, not_lt, htype]; simp
  · next htype => rw [htype]; simp

theorem checkPace_eq_ok : checkPace paced = .ok () ↔
    (paced.exceptions.map (·.key)).Nodup ∧ numSeconds paced.interval ≠ 0 ∧
      ∀ e ∈ paced.exceptions, ∀ i, e.exceptionType = .Modified i →
        i ≤ numSeconds paced.timeWindow / numSeconds paced.interval := by
  rw [checkPace, check_bind_eq_ok, checkKeys_eq_ok, bind_eq_ok]
  simp only [divide_eq_ok, forM_eq_ok, checkIndex_eq_ok, not_mem_nil, not_false_eq_true,
    implies_true, and_true, and_assoc, exists_and_left, exists_eq_left]

theorem checkPace_eq_panic : checkPace paced = .error .panic ↔
    (paced.exceptions.map (·.key)).Nodup ∧ numSeconds paced.interval = 0 := by
  rw [checkPace, check_bind_eq_error, checkKeys_eq_ok, bind_eq_error, divide_eq_panic]
  constructor
  · rintro (h | ⟨⟨hkeys, -⟩, h | ⟨n, -, h⟩⟩)
    · exact absurd h checkKeys_ne_panic
    · exact ⟨hkeys, h⟩
    · exact absurd h (forM_ne_error fun e _ => checkIndex_ne_panic e)
  · rintro ⟨hkeys, hzero⟩
    exact .inr ⟨⟨hkeys, fun _ _ hmem => (nomatch hmem)⟩, .inl hzero⟩

/-- A document with a pace whose durations are accepted, read to its end. -/
theorem deserialize_paced {document : Document} {paced : PacedDocument} {timeWindow interval : ℕ}
    (hpaced : document.paced = some paced)
    (htimeWindow : PositiveDuration.deserialize paced.timeWindow = .ok timeWindow)
    (hinterval : PositiveDuration.deserialize paced.interval = .ok interval) : deserialize document = (do
      document.trainOccurrence.deserialize
      checkArrival document.trainOccurrence
      checkPace ⟨timeWindow, interval, paced.exceptions⟩
      return ⟨document.trainOccurrence, some ⟨timeWindow, interval, paced.exceptions⟩⟩) := by
  simp only [deserialize, readFields, hpaced, readPaced, htimeWindow, hinterval]
  cases document.trainOccurrence.deserialize <;> rfl

/-- The pace of a schedule that is accepted has passed its check. -/
theorem checkPace_of_deserialize {document : Document} {schedule : TrainSchedule}
    (h : deserialize document = .ok schedule) (hpaced : schedule.paced = some paced) :
    checkPace paced = .ok () := by
  simp only [deserialize, bind_eq_ok] at h
  obtain ⟨read, -, -, -, hrest⟩ := h
  cases hread : read.paced with
  | none =>
    rw [hread] at hrest
    cases hrest
    exact nomatch hread.symm.trans hpaced
  | some paced' =>
    rw [hread] at hrest
    obtain ⟨hcheck, hschedule⟩ := check_bind_eq_ok.mp hrest
    cases hschedule
    cases hread.symm.trans hpaced
    exact hcheck

end PacedTrain

end Osrd.Timetable
