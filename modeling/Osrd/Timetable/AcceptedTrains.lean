import Osrd.Timetable.Occurrences

/-! What holds for the train schedules that the API accepts: when the reading of a document panics, which
    base occurrences the modified exceptions refer to, and which occurrences there are. -/

namespace Osrd.Timetable

open Option TrainSchedule PacedTrain

variable (id : ℤ)
variable {document : Document} {schedule : PacedTrain.TrainSchedule}

/-! ### The stored schedule -/

theorem numBaseOccurrences_of_paced {paced : Paced} (hpaced : schedule.paced = some paced)
    (h : numSeconds paced.interval ≠ 0) : (fromPacedTrain id schedule).numBaseOccurrences =
      some (numSeconds paced.timeWindow / numSeconds paced.interval) := by
  simp only [numBaseOccurrences, pace, fromPacedTrain, hpaced,
    map_some, bind_eq_bind, bind_some, pure_def, if_neg h]

theorem exceptions_of_paced {paced : Paced} (hpaced : schedule.paced = some paced) :
    (fromPacedTrain id schedule).exceptions = paced.exceptions := by
  simp only [fromPacedTrain, hpaced, map_some, getD_some]

theorem exceptions_of_not_paced (hpaced : schedule.paced = none) :
    (fromPacedTrain id schedule).exceptions = [] := by
  simp only [fromPacedTrain, hpaced, map_none, getD_none]

theorem numBaseOccurrences_isSome (h : deserialize document = .ok schedule) :
    ∃ n, (fromPacedTrain id schedule).numBaseOccurrences = some n := by
  cases hpaced : schedule.paced with
  | none => exact ⟨1, by simp only [numBaseOccurrences, pace,
      fromPacedTrain, hpaced, map_none, bind_eq_bind, bind_none]⟩
  | some paced =>
    obtain ⟨-, hinterval, -⟩ := checkPace_eq_ok.mp (checkPace_of_deserialize h hpaced)
    exact ⟨_, numBaseOccurrences_of_paced id hpaced hinterval⟩

theorem keys_nodup (h : deserialize document = .ok schedule) :
    ((fromPacedTrain id schedule).exceptions.map (·.key)).Nodup := by
  cases hpaced : schedule.paced with
  | none =>
    rw [exceptions_of_not_paced id hpaced]
    exact .nil
  | some paced =>
    rw [exceptions_of_paced id hpaced]
    exact (checkPace_eq_ok.mp (checkPace_of_deserialize h hpaced)).1

/-! ### The reading -/

/-- A document panics when it passes the checks and its path is empty, or its interval is shorter than a
    second. -/
def Panics (o : TrainOccurrence) (exceptions : List PacedTrainException) (interval : ℕ) : Prop :=
  o.WellFormed ∧
    (o.path = [] ∨ o.DepartsFirst ∧ (exceptions.map (·.key)).Nodup ∧ interval < 1000)

/-- The reading of a paced train gives an error, or a schedule whose base occurrences can be counted, exactly
    when the document is not one of those that panic. -/
theorem deserialize_paced_safe_iff {paced : PacedDocument} {timeWindow interval : ℕ}
    (hpaced : document.paced = some paced)
    (htimeWindow : PositiveDuration.deserialize paced.timeWindow = .ok timeWindow)
    (hinterval : PositiveDuration.deserialize paced.interval = .ok interval) :
    (deserialize document ≠ .error .panic ∧
      ∀ schedule, deserialize document = .ok schedule →
        ∀ id, (fromPacedTrain id schedule).numBaseOccurrences.isSome) ↔
      ¬ Panics document.trainOccurrence paced.exceptions interval := by
  have hcounted : ∀ schedule, deserialize document = .ok schedule →
      ∀ id, (fromPacedTrain id schedule).numBaseOccurrences.isSome :=
    fun schedule h id => isSome_iff_exists.mpr (numBaseOccurrences_isSome id h)
  have hzero : numSeconds interval = 0 ↔ interval < 1000 := by
    rw [numSeconds]
    omega
  rw [and_iff_left hcounted, deserialize_paced hpaced htimeWindow hinterval, ne_eq, not_iff_not]
  simp only [Partial.check_bind_eq_error, TrainOccurrence.deserialize_eq_panic,
    TrainOccurrence.deserialize_eq_ok, checkPace_eq_panic, Panics, hzero]
  constructor
  · rintro (⟨hwell, hempty⟩ | ⟨⟨hwell, hfirst⟩, harrival | ⟨-, hpace | ⟨-, hreturn⟩⟩⟩)
    · exact ⟨hwell, .inl hempty⟩
    · exact nomatch (checkArrival_of_departsFirst hfirst).symm.trans harrival
    · exact ⟨hwell, .inr ⟨hfirst, hpace⟩⟩
    · exact nomatch hreturn
  · rintro ⟨hwell, hempty | ⟨hfirst, hpace⟩⟩
    · exact .inl ⟨hwell, hempty⟩
    · exact .inr ⟨⟨hwell, hfirst⟩, .inr ⟨checkArrival_of_departsFirst hfirst, .inl hpace⟩⟩

/-- From `a` to `b` without stops. -/
def plainOccurrence : TrainOccurrence where
  trainName := "train"
  labels := []
  rollingStockName := "stock"
  startTime := 0
  path := [⟨"a"⟩, ⟨"b"⟩]
  schedule := []
  margins := ⟨[], [.Percentage 0]⟩
  initialSpeed := 0
  comfort := .Standard
  constraintDistribution := .Standard
  speedLimitTag := none
  powerRestrictions := []
  options := ⟨true, true, false⟩
  category := none

def noChanges : ChangeGroups := ⟨none, none, none, none, none, none, none, none, none, none⟩

/-- The plain train through two hours, with an interval of some minutes and milliseconds. -/
def twoHours (minute millisecond : UInt32) (exceptions : List PacedTrainException) : Document :=
  ⟨plainOccurrence, some ⟨.YMDHMS 0 0 0 2 0 0 0, .YMDHMS 0 0 0 0 minute 0 millisecond, exceptions⟩⟩

theorem twoHours_timeWindow :
    PositiveDuration.deserialize (.YMDHMS 0 0 0 2 0 0 0) = .ok 7200000 := by decide +kernel

theorem halfHour : PositiveDuration.deserialize (.YMDHMS 0 0 0 0 30 0 0) = .ok 1800000 := by
  decide +kernel

/-- The plain train passes the checks of the occurrence, so only its pace is looked at. -/
theorem deserialize_twoHours {minute millisecond : UInt32} {exceptions : List PacedTrainException}
    {interval : ℕ} (h : PositiveDuration.deserialize (.YMDHMS 0 0 0 0 minute 0 millisecond) = .ok interval) :
    deserialize (twoHours minute millisecond exceptions) = (do
      checkPace ⟨7200000, interval, exceptions⟩
      return ⟨plainOccurrence, some ⟨7200000, interval, exceptions⟩⟩) := by
  have hpaced : (twoHours minute millisecond exceptions).paced =
      some ⟨.YMDHMS 0 0 0 2 0 0 0, .YMDHMS 0 0 0 0 minute 0 millisecond, exceptions⟩ := rfl
  rw [deserialize_paced hpaced twoHours_timeWindow h]
  rfl

theorem deserialize_half_hour_safe : deserialize (twoHours 30 0 []) ≠ .error .panic ∧
      ∀ schedule, deserialize (twoHours 30 0 []) = .ok schedule →
        ∀ id, (fromPacedTrain id schedule).numBaseOccurrences.isSome := by
  have hpaced : (twoHours 30 0 []).paced =
      some ⟨.YMDHMS 0 0 0 2 0 0 0, .YMDHMS 0 0 0 0 30 0 0, []⟩ := rfl
  refine (deserialize_paced_safe_iff hpaced twoHours_timeWindow halfHour).mpr ?_
  rintro ⟨-, hempty | ⟨-, -, hshort⟩⟩
  · exact nomatch hempty
  · exact absurd hshort (by decide)

/-- An interval of half a second. -/
theorem deserialize_half_second_panics :
    PositiveDuration.deserialize (.YMDHMS 0 0 0 0 0 0 500) = .ok 500 ∧
      deserialize (twoHours 0 500 []) = .error .panic := by
  have hinterval : PositiveDuration.deserialize (.YMDHMS 0 0 0 0 0 0 500) = .ok 500 := by
    decide +kernel
  exact ⟨hinterval, by rw [deserialize_twoHours hinterval]; rfl⟩

/-! ### The indices of the modified exceptions -/

/-- In a schedule that is accepted the modified exceptions refer to base occurrences, exactly when none of
    them has the number of occurrences for its index. -/
theorem modified_index_lt_iff (id : ℤ) (h : deserialize document = .ok schedule) :
    (∀ e ∈ (fromPacedTrain id schedule).exceptions, ∀ i, e.exceptionType = .Modified i →
        ∃ n, (fromPacedTrain id schedule).numBaseOccurrences = some n ∧ i < n) ↔
      ∀ paced, schedule.paced = some paced → ∀ e ∈ paced.exceptions,
        e.exceptionType ≠ .Modified (numSeconds paced.timeWindow / numSeconds paced.interval) := by
  cases hpaced : schedule.paced with
  | none =>
    rw [exceptions_of_not_paced id hpaced]
    exact ⟨fun _ _ hsome => (nomatch hsome), fun _ _ he => (nomatch he)⟩
  | some paced =>
    obtain ⟨-, hinterval, hindices⟩ := checkPace_eq_ok.mp (checkPace_of_deserialize h hpaced)
    have hn := numBaseOccurrences_of_paced id hpaced hinterval
    rw [exceptions_of_paced id hpaced, hn]
    constructor
    · intro hlt _ hsome e he htype
      cases hsome
      obtain ⟨n, hn, hi⟩ := hlt e he _ htype
      exact absurd (some.inj hn ▸ hi) (lt_irrefl _)
    · intro hne e he i htype
      refine ⟨_, rfl, lt_of_le_of_ne (hindices e he i htype) ?_⟩
      rintro rfl
      exact hne paced rfl e he htype

/-- An exception for the occurrence at an index, without changes. -/
def modifiedAt (i : ℕ) : PacedTrainException := ⟨"key", .Modified i, false, noChanges⟩

/-- Two hours are four half hours, and the index 4 is still accepted. -/
theorem deserialize_modifiedAt {i : ℕ} (hi : i ≤ 4) : deserialize (twoHours 30 0 [modifiedAt i]) =
      .ok ⟨plainOccurrence, some ⟨7200000, 1800000, [modifiedAt i]⟩⟩ := by
  have hfour : numSeconds 7200000 / numSeconds 1800000 = 4 := by decide
  have hinterval : numSeconds 1800000 ≠ 0 := by decide
  have hpace : checkPace ⟨7200000, 1800000, [modifiedAt i]⟩ = .ok () := by
    refine checkPace_eq_ok.mpr ⟨List.nodup_singleton _, hinterval, ?_⟩
    intro e he j htype
    obtain rfl := List.mem_singleton.mp he
    rw [hfour, ← ExceptionType.Modified.inj htype]
    exact hi
  rw [deserialize_twoHours halfHour, hpace]
  rfl

theorem modified_index_three_lt : deserialize (twoHours 30 0 [modifiedAt 3]) =
        .ok ⟨plainOccurrence, some ⟨7200000, 1800000, [modifiedAt 3]⟩⟩ ∧
      ∃ n, (fromPacedTrain 1
        ⟨plainOccurrence, some ⟨7200000, 1800000, [modifiedAt 3]⟩⟩).numBaseOccurrences = some n ∧
          3 < n := by
  have haccepted := deserialize_modifiedAt (show 3 ≤ 4 by decide)
  have hindices := (modified_index_lt_iff 1 haccepted).mpr fun paced hpaced e he => by
    cases hpaced
    obtain rfl := List.mem_singleton.mp he
    decide
  exact ⟨haccepted, hindices (modifiedAt 3) List.mem_cons_self 3 rfl⟩

/-- Some 250 000 years around 1970. -/
def wideCalendar : Calendar := ⟨-8000000000000000000000, 8000000000000000000000⟩

/-- The index 4 is accepted although there are four occurrences, and the exception has no effect. -/
theorem modified_index_four_ignored : deserialize (twoHours 30 0 [modifiedAt 4]) =
        .ok ⟨plainOccurrence, some ⟨7200000, 1800000, [modifiedAt 4]⟩⟩ ∧ (fromPacedTrain 1
        ⟨plainOccurrence, some ⟨7200000, 1800000, [modifiedAt 4]⟩⟩).numBaseOccurrences = some 4 ∧
      (fromPacedTrain 1
          ⟨plainOccurrence, some ⟨7200000, 1800000, [modifiedAt 4]⟩⟩).iterOccurrences wideCalendar =
        (fromPacedTrain 1 ⟨plainOccurrence, some ⟨7200000, 1800000, []⟩⟩).iterOccurrences wideCalendar :=
  ⟨deserialize_modifiedAt le_rfl, rfl, rfl⟩

/-! ### The occurrences -/

/-- For a schedule that is accepted, `iter_occurrences` panics exactly when the start of a base occurrence is
    not a date. Otherwise it yields one occurrence for each base index that is not disabled and one for each
    created exception, in the order of the start times. -/
theorem iterOccurrences_of_accepted (calendar : Calendar) (id : ℤ)
    (h : deserialize document = .ok schedule) :
    ∃ n, (fromPacedTrain id schedule).numBaseOccurrences = some n ∧
      (((fromPacedTrain id schedule).iterOccurrences calendar).isSome ↔
        ∀ i < n, ((fromPacedTrain id schedule).getOccurrenceStartTime calendar i).isSome) ∧
      ∀ occurrences, (fromPacedTrain id schedule).iterOccurrences calendar =
          some occurrences → (fromPacedTrain id schedule).Yields n occurrences := by
  obtain ⟨n, hn⟩ := numBaseOccurrences_isSome id h
  refine ⟨n, hn, ⟨startTime_of_iterOccurrences hn, fun hstart => ?_⟩, fun occurrences => ?_⟩
  · obtain ⟨-, created, -, hoccurrences⟩ := iterOccurrences_eq hn hstart
    rw [hoccurrences]
    rfl
  · exact iterOccurrences_yields hn (keys_nodup id h)

theorem iterOccurrences_modifiedAt_two : ∃ n, (fromPacedTrain 1
        ⟨plainOccurrence, some ⟨7200000, 1800000, [modifiedAt 2]⟩⟩).numBaseOccurrences = some n ∧
      ∀ occurrences, (fromPacedTrain 1
          ⟨plainOccurrence, some ⟨7200000, 1800000, [modifiedAt 2]⟩⟩).iterOccurrences wideCalendar =
          some occurrences → (fromPacedTrain 1
          ⟨plainOccurrence, some ⟨7200000, 1800000, [modifiedAt 2]⟩⟩).Yields n occurrences := by
  obtain ⟨n, hn, -, hyields⟩ :=
    iterOccurrences_of_accepted wideCalendar 1 (deserialize_modifiedAt (show 2 ≤ 4 by decide))
  exact ⟨n, hn, hyields⟩

/-- An exception that would create a train, disabled. -/
def disabledCreated : PacedTrainException := ⟨"key", .Created, true, noChanges⟩

/-- The train that a disabled exception creates is yielded all the same. -/
theorem iterOccurrences_disabled_created : deserialize (twoHours 30 0 [disabledCreated]) =
        .ok ⟨plainOccurrence, some ⟨7200000, 1800000, [disabledCreated]⟩⟩ ∧
      ((fromPacedTrain 1 ⟨plainOccurrence, some ⟨7200000, 1800000, [disabledCreated]⟩⟩).iterOccurrences
            wideCalendar).map (·.map (·.1)) =
        some [.Base 1 0, .Created 1 "key", .Base 1 1, .Base 1 2, .Base 1 3] := by
  refine ⟨?_, by decide +kernel⟩
  rw [deserialize_twoHours halfHour]
  rfl

end Osrd.Timetable
