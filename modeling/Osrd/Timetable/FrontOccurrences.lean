import Mathlib.Data.Rat.Floor
import Osrd.Timetable.AcceptedTrains

/-! Model of the occurrences that the front end counts for a paced train
    (`front/src/modules/timetableItem/helpers/pacedTrain.ts`), beside the base occurrences of editoast.

    The front end divides milliseconds and rounds up, editoast divides whole seconds and rounds down.
    Durations are read exactly, and the quotient is the exact one: a number of the front end is exact below
    `2 ^ 53` milliseconds. -/

namespace Osrd.Timetable

variable {timeWindow interval n : ℕ}

/-! ### The front end -/

/-- The number of indexed occurrences; an interval of 0 throws. -/
def getOccurrencesNb (timeWindow interval : ℕ) : Option ℕ :=
  if interval = 0 then none else some ⌈(timeWindow : ℚ) / interval⌉₊

/-! ### The two counts -/

theorem ceil_div_eq_iff (h : 0 < interval) :
    ⌈(timeWindow : ℚ) / interval⌉₊ = n ↔
      timeWindow ≤ n * interval ∧ n * interval < timeWindow + interval := by
  have hpos : (0 : ℚ) < interval := by exact_mod_cast h
  have hle : ⌈(timeWindow : ℚ) / interval⌉₊ ≤ n ↔ timeWindow ≤ n * interval := by
    rw [Nat.ceil_le, div_le_iff₀ hpos]
    exact_mod_cast Iff.rfl
  have hge : n ≤ ⌈(timeWindow : ℚ) / interval⌉₊ ↔ n * interval < timeWindow + interval := by
    cases n with
    | zero => simp [h]
    | succ n =>
      rw [Nat.succ_le_iff, Nat.lt_ceil, lt_div_iff₀ hpos, Nat.succ_mul, Nat.add_lt_add_iff_right]
      exact_mod_cast Iff.rfl
  rw [le_antisymm_iff, hle, hge]

theorem numSeconds_div_eq_iff (h : 1000 ≤ interval) :
    numSeconds timeWindow / numSeconds interval = n ↔ n * (1000 * numSeconds interval) ≤ timeWindow ∧
        timeWindow < (n + 1) * (1000 * numSeconds interval) := by
  have hpos : 0 < 1000 * numSeconds interval := by
    rw [numSeconds]
    omega
  have hdiv : numSeconds timeWindow / numSeconds interval = timeWindow / (1000 * numSeconds interval) := by
    rw [numSeconds, Nat.div_div_eq_div_mul]
  rw [hdiv, le_antisymm_iff, Nat.le_div_iff_mul_le hpos, ← Nat.lt_succ_iff, Nat.div_lt_iff_lt_mul hpos]
  exact and_comm

/-- For some `n` the window is at least `n` and less than `n + 1` intervals cut to whole seconds, and more
    than `n - 1` and at most `n` whole intervals. -/
def EndsWithInterval (timeWindow interval : ℕ) : Prop :=
  ∃ n, n * (1000 * numSeconds interval) ≤ timeWindow ∧
    timeWindow < (n + 1) * (1000 * numSeconds interval) ∧
    timeWindow ≤ n * interval ∧ n * interval < timeWindow + interval

/-- With an interval of whole seconds, the window is a number of intervals. -/
theorem endsWithInterval_iff_dvd {timeWindow interval : ℕ} (h : 1000 ≤ interval)
    (hseconds : interval % 1000 = 0) : EndsWithInterval timeWindow interval ↔ interval ∣ timeWindow := by
  have hcut : 1000 * numSeconds interval = interval := Nat.mul_div_cancel' (Nat.dvd_of_mod_eq_zero hseconds)
  rw [EndsWithInterval, hcut]
  constructor
  · rintro ⟨n, hle, -, hge, -⟩
    exact ⟨n, by rw [mul_comm]; exact le_antisymm hge hle⟩
  · rintro ⟨n, rfl⟩
    have hlt : n * interval < (n + 1) * interval := Nat.mul_lt_mul_of_pos_right n.lt_succ_self (by omega)
    refine ⟨n, (mul_comm ..).le, ?_, (mul_comm ..).le, ?_⟩
    · rwa [mul_comm]
    · rw [mul_comm interval]
      omega

/-- The two counts are the same exactly when the window ends with an interval. -/
theorem getOccurrencesNb_eq_iff (id : ℤ) {schedule : PacedTrain.TrainSchedule} {paced : Paced}
    (hpaced : schedule.paced = some paced) (hinterval : 1000 ≤ paced.interval) :
    getOccurrencesNb paced.timeWindow paced.interval =
        (TrainSchedule.fromPacedTrain id schedule).numBaseOccurrences ↔
      if paced.interval % 1000 = 0 then paced.interval ∣ paced.timeWindow
      else EndsWithInterval paced.timeWindow paced.interval := by
  have hseconds : numSeconds paced.interval ≠ 0 := by
    rw [numSeconds]
    omega
  have hcond : (if paced.interval % 1000 = 0 then paced.interval ∣ paced.timeWindow
      else EndsWithInterval paced.timeWindow paced.interval) ↔
        EndsWithInterval paced.timeWindow paced.interval := by
    split
    · next hwhole => exact (endsWithInterval_iff_dvd hinterval hwhole).symm
    · rfl
  rw [numBaseOccurrences_of_paced id hpaced hseconds, getOccurrencesNb, if_neg (by omega), hcond,
    Option.some.injEq, EndsWithInterval]
  constructor
  · intro heq
    obtain ⟨hge, hlt⟩ := (ceil_div_eq_iff (by omega)).mp heq
    obtain ⟨hle, hlt'⟩ := (numSeconds_div_eq_iff hinterval).mp rfl
    exact ⟨_, hle, hlt', hge, hlt⟩
  · rintro ⟨n, hle, hlt', hge, hlt⟩
    rw [(ceil_div_eq_iff (by omega)).mpr ⟨hge, hlt⟩, (numSeconds_div_eq_iff hinterval).mpr ⟨hle, hlt'⟩]

/-- Two hours every half hour: four occurrences on both sides. -/
theorem getOccurrencesNb_eq_twoHours : getOccurrencesNb 7200000 1800000 =
      (TrainSchedule.fromPacedTrain 1 ⟨plainOccurrence, some ⟨7200000, 1800000, []⟩⟩).numBaseOccurrences :=
  (@getOccurrencesNb_eq_iff 1 ⟨plainOccurrence, some ⟨7200000, 1800000, []⟩⟩ ⟨7200000, 1800000, []⟩ rfl
    (by decide)).mpr (by rw [if_pos (by decide)]; decide)

/-- 30 minutes every 20 minutes: two occurrences in the front end, one base occurrence. -/
theorem getOccurrencesNb_halfHour : getOccurrencesNb 1800000 1200000 = some 2 ∧
      (TrainSchedule.fromPacedTrain 1
        ⟨plainOccurrence, some ⟨1800000, 1200000, []⟩⟩).numBaseOccurrences = some 1 := by
  refine ⟨?_, rfl⟩
  rw [getOccurrencesNb, if_neg (by decide), Option.some.injEq, ceil_div_eq_iff (by decide)]
  decide

end Osrd.Timetable
