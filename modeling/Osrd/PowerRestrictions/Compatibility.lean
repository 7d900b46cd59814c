import Mathlib.Data.List.Dedup
import Mathlib.Data.List.ProdSigma
import Mathlib.Tactic.Linarith

/-! Which power restrictions the rolling stock handles in which voltages
    (`front/src/modules/powerRestriction/helpers/formatPowerRestrictionRangesWithHandled.ts`).

    A restriction and a voltage range overlap when an end of the restriction is in the voltage range: a range
    inside the restriction is missed. -/

namespace Osrd.PowerRestrictions

open List

/-- A voltage along the path, in meters. -/
structure RangedValue where
  begin : ℚ
  endAt : ℚ
  value : String

/-- A restriction along the path, in millimeters. -/
structure PowerRestrictionRange where
  start : ℚ
  endAt : ℚ
  powerRestriction : String

/-- An entry of the result, in kilometers. -/
structure RestrictionWithHandled where
  start : ℚ
  endAt : ℚ
  powerRestriction : String
  handled : Bool
deriving DecidableEq

/-- The power restriction codes of the curves of the modes that there are. -/
abbrev EffortCurves := String → Option (List (Option String))

def mToMm (length : ℚ) : ℚ := length * 1000

def mmToKm (length : ℚ) : ℚ := length / 1000000

variable (modes : EffortCurves)

/-- `compact(uniq(powerCodes))` of each mode; an empty text is no code. -/
def getRollingStockPowerRestrictionsByMode (mode : String) : Option (List String) :=
  (modes mode).map fun powerCodes => (powerCodes.dedup.filterMap id).filter (· ≠ "")

variable (restriction : PowerRestrictionRange) (voltage : RangedValue)

/-- One end of the restriction is in the voltage range. -/
def endInRange : Bool :=
  (mToMm voltage.begin ≤ restriction.start ∧ restriction.start < mToMm voltage.endAt) ∨
    (mToMm voltage.begin < restriction.endAt ∧ restriction.endAt ≤ mToMm voltage.endAt)

def withHandled : RestrictionWithHandled :=
  ⟨mmToKm restriction.start, mmToKm restriction.endAt, restriction.powerRestriction,
    (getRollingStockPowerRestrictionsByMode modes voltage.value).any
    (·.contains restriction.powerRestriction)⟩

def convertPowerRestrictionsAndCheckCompatibility (restrictions : List PowerRestrictionRange)
    (voltages : List RangedValue) (modes : EffortCurves) : List RestrictionWithHandled :=
  restrictions.flatMap fun restriction =>
    (voltages.filter (endInRange restriction)).map (withHandled modes restriction)

/-! ### What is asked for -/

/-- The open intervals have a point in common. -/
def Overlap : Prop :=
  max restriction.start (mToMm voltage.begin) < min restriction.endAt (mToMm voltage.endAt)

instance (restriction : PowerRestrictionRange) (voltage : RangedValue) :
    Decidable (Overlap restriction voltage) :=
  inferInstanceAs (Decidable (_ < _))

/-- A curve of the mode of this voltage has the code of the restriction. -/
def Handles : Prop :=
  restriction.powerRestriction ≠ "" ∧
    ∃ codes ∈ modes voltage.value, some restriction.powerRestriction ∈ codes

/-- An entry for a pair of a restriction and a voltage range. -/
def EntryOf (pair : PowerRestrictionRange × RangedValue) (entry : RestrictionWithHandled) : Prop :=
  entry.start = mmToKm pair.1.start ∧ entry.endAt = mmToKm pair.1.endAt ∧
    entry.powerRestriction = pair.1.powerRestriction ∧ (entry.handled ↔ Handles modes pair.1 pair.2)

theorem withHandled_entryOf (pair : PowerRestrictionRange × RangedValue) :
    EntryOf modes pair (withHandled modes pair.1 pair.2) := by
  refine ⟨rfl, rfl, rfl, ?_⟩
  cases hmode : modes pair.2.value <;>
    simp [withHandled, getRollingStockPowerRestrictionsByMode, Handles, hmode, and_comm]

theorem endInRange_iff {restriction : PowerRestrictionRange} (h : restriction.start < restriction.endAt)
    (voltage : RangedValue) : endInRange restriction voltage ↔ Overlap restriction voltage ∧
      ¬ (restriction.start < mToMm voltage.begin ∧ mToMm voltage.endAt < restriction.endAt) := by
  simp only [endInRange, Overlap, decide_eq_true_eq, max_lt_iff, lt_min_iff, not_and, not_lt]
  constructor
  · rintro (⟨hbegin, hstart⟩ | ⟨hend, hle⟩)
    · exact ⟨⟨⟨h, by linarith⟩, hstart, by linarith⟩, fun hlt => absurd hlt hbegin.not_gt⟩
    · exact ⟨⟨⟨h, hend⟩, by linarith, by linarith⟩, fun _ => hle⟩
  · rintro ⟨⟨⟨-, hend⟩, hstart, -⟩, hinside⟩
    rcases le_or_gt (mToMm voltage.begin) restriction.start with hle | hlt
    · exact .inl ⟨hle, hstart⟩
    · exact .inr ⟨hend, hinside hlt⟩

theorem convertPowerRestrictions_eq (restrictions : List PowerRestrictionRange) (voltages : List RangedValue)
    (modes : EffortCurves) : convertPowerRestrictionsAndCheckCompatibility restrictions voltages modes =
      ((restrictions ×ˢ voltages).filter fun pair => endInRange pair.1 pair.2).map fun pair =>
        withHandled modes pair.1 pair.2 := by
  simp only [SProd.sprod, product, filter_flatMap, map_flatMap, filter_map, map_map]
  rfl

/-- There is one entry for each overlap iff no voltage range is strictly inside a restriction. -/
theorem convertPowerRestrictions_entries_iff {restrictions : List PowerRestrictionRange}
    (h : ∀ restriction ∈ restrictions, restriction.start < restriction.endAt) (voltages : List RangedValue)
    (modes : EffortCurves) :
    Forall₂ (EntryOf modes) ((restrictions ×ˢ voltages).filter fun pair => Overlap pair.1 pair.2)
        (convertPowerRestrictionsAndCheckCompatibility restrictions voltages modes) ↔
      ∀ restriction ∈ restrictions, ∀ voltage ∈ voltages, ¬ (restriction.start < mToMm voltage.begin ∧
        mToMm voltage.begin < mToMm voltage.endAt ∧ mToMm voltage.endAt < restriction.endAt) := by
  have hpair : ∀ pair ∈ restrictions ×ˢ voltages, endInRange pair.1 pair.2 ↔ Overlap pair.1 pair.2 ∧
      ¬ (pair.1.start < mToMm pair.2.begin ∧ mToMm pair.2.endAt < pair.1.endAt) := fun pair hmem =>
    endInRange_iff (h _ (mem_product.mp hmem).1) _
  have hentry : ((restrictions ×ˢ voltages).filter fun pair => endInRange pair.1 pair.2) =
      ((restrictions ×ˢ voltages).filter fun pair => Overlap pair.1 pair.2).filter
        fun pair => endInRange pair.1 pair.2 := by
    rw [filter_filter]
    refine filter_congr fun pair hmem => ?_
    rw [Bool.eq_iff_iff, Bool.and_eq_true, decide_eq_true_iff, iff_self_and]
    exact fun hin => ((hpair pair hmem).mp hin).1
  -- each pair that overlaps has its entry
  have hall : Forall₂ (EntryOf modes) ((restrictions ×ˢ voltages).filter fun pair => Overlap pair.1 pair.2)
      (convertPowerRestrictionsAndCheckCompatibility restrictions voltages modes) ↔
        ∀ pair ∈ (restrictions ×ˢ voltages).filter fun pair => Overlap pair.1 pair.2,
          endInRange pair.1 pair.2 := by
    rw [convertPowerRestrictions_eq, hentry, forall₂_map_right_iff]
    constructor
    · exact fun hentries => length_filter_eq_length_iff.mp hentries.length_eq.symm
    · intro hin
      rw [filter_eq_self.mpr hin, forall₂_same]
      exact fun pair _ => withHandled_entryOf modes pair
  rw [hall]
  constructor
  · rintro hin restriction hr voltage hv ⟨hbegin, hwidth, hend⟩
    have hmem : (restriction, voltage) ∈ restrictions ×ˢ voltages := mem_product.mpr ⟨hr, hv⟩
    refine ((hpair _ hmem).mp (hin _ (mem_filter.mpr ⟨hmem, decide_eq_true ?_⟩))).2 ⟨hbegin, hend⟩
    simp only [Overlap, max_lt_iff, lt_min_iff]
    exact ⟨⟨h _ hr, by linarith⟩, by linarith, hwidth⟩
  · intro hnone pair hmem
    obtain ⟨hmem, hoverlap⟩ := mem_filter.mp hmem
    have hoverlap := of_decide_eq_true hoverlap
    obtain ⟨hr, hv⟩ := mem_product.mp hmem
    refine (hpair pair hmem).mpr ⟨hoverlap, fun hinside => hnone _ hr _ hv ⟨hinside.1, ?_, hinside.2⟩⟩
    exact (lt_min_iff.mp (max_lt_iff.mp hoverlap).2).2

theorem convertPowerRestrictions_entries_iff_twoRanges :
    Forall₂ (EntryOf fun mode => if mode = "1500V" then some [none, some "C1"] else none)
      ((([⟨0, 9000, "C1"⟩, ⟨9000, 30000, "C1"⟩] : List PowerRestrictionRange) ×ˢ
        [⟨0, 20, "1500V"⟩, ⟨20, 40, "25000V"⟩]).filter fun pair => Overlap pair.1 pair.2)
      [⟨0, 9 / 1000, "C1", true⟩, ⟨9 / 1000, 3 / 100, "C1", true⟩, ⟨9 / 1000, 3 / 100, "C1", false⟩] := by
  refine Eq.subst (motive := Forall₂ _ _) ?_ ((convertPowerRestrictions_entries_iff ?_ _ _).mpr ?_)
  · decide +kernel
  · norm_num
  · norm_num [mToMm]

/-- A voltage range inside a restriction: there is no entry. -/
theorem convertPowerRestrictions_inside :
    convertPowerRestrictionsAndCheckCompatibility [⟨0, 9000, "C1"⟩] [⟨2, 5, "1500V"⟩]
      (fun _ => some [some "C1"]) = [] := by
  norm_num [convertPowerRestrictionsAndCheckCompatibility, endInRange, mToMm]

end Osrd.PowerRestrictions
