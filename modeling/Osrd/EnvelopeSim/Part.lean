import Mathlib.Algebra.Order.Field.Basic
import Mathlib.Algebra.Order.AbsoluteValue.Basic
import Mathlib.Data.List.Chain

/-! Model of envelope parts (`core/envelope-sim`: `EnvelopePart.kt`, `EnvelopePartBuilder.java`,
    `EnvelopePhysics.java` and `Envelope.kt`), in exact arithmetic: positions and speeds are in an ordered
    field.

    What the constructors check are fields of the structures, so that a part or an envelope that fails its
    checks does not exist; an assertion that fails answers `none`. A step at speed zero takes an infinite
    time. -/

namespace Osrd.EnvelopeSim

open List

/-- A polyline over speed and space. The attributes are only copied. -/
structure EnvelopePart (K Attrs : Type) [Field K] [LinearOrder K] where
  attrs : Attrs
  positions : List K
  speeds : List K
  timeDeltas : List (WithTop K)
  positions_ne : positions ≠ []
  speeds_length : positions.length = speeds.length
  timeDeltas_length : timeDeltas.length + 1 = positions.length
  speeds_nonneg : ∀ speed ∈ speeds, 0 ≤ speed
  timeDeltas_nonneg : ∀ time ∈ timeDeltas, 0 ≤ time
  increasing : positions.IsChain (· < ·)

section Parts

variable {K Attrs : Type} [Field K] [LinearOrder K]

namespace EnvelopePart

theorem ext_iff' {a b : EnvelopePart K Attrs} : a = b ↔ a.attrs = b.attrs ∧
    a.positions = b.positions ∧ a.speeds = b.speeds ∧ a.timeDeltas = b.timeDeltas := by
  constructor
  · rintro rfl
    exact ⟨rfl, rfl, rfl, rfl⟩
  · cases a
    cases b
    rintro ⟨rfl, rfl, rfl, rfl⟩
    rfl

instance [DecidableEq Attrs] : DecidableEq (EnvelopePart K Attrs) := fun _ _ =>
  decidable_of_iff _ ext_iff'.symm

/-- The constructor, with its checks on the lists. It also asserts that the attributes have an
    `EnvelopeProfile`; the attributes are any type here. -/
def new (attrs : Attrs) (positions speeds : List K) (timeDeltas : List (WithTop K)) :
    Option (EnvelopePart K Attrs) :=
  if h : positions ≠ [] ∧ positions.length = speeds.length ∧
      timeDeltas.length + 1 = positions.length ∧ (∀ speed ∈ speeds, 0 ≤ speed) ∧
      (∀ time ∈ timeDeltas, 0 ≤ time) ∧ positions.IsChain (· < ·) then
    some ⟨attrs, positions, speeds, timeDeltas, h.1, h.2.1, h.2.2.1, h.2.2.2.1, h.2.2.2.2.1, h.2.2.2.2.2⟩
  else none

variable (part : EnvelopePart K Attrs)

def stepCount : ℕ := part.positions.length - 1

/-- `none` is the infinity of an empty list. -/
def minSpeed : Option K := part.speeds.min?

def maxSpeed : Option K := part.speeds.max?

def beginPos : K := part.positions.head part.positions_ne

def endPos : K := part.positions.getLast part.positions_ne

/-- The part has one speed. -/
def HasSpeed (v : K) : Prop := ∀ speed ∈ part.speeds, speed = v

variable (part : EnvelopePart K Attrs)

theorem speeds_ne : part.speeds ≠ [] := by
  have hpos := length_pos_of_ne_nil part.positions_ne
  rw [part.speeds_length] at hpos
  exact ne_nil_of_length_pos hpos

theorem exists_minSpeed : ∃ speed, part.minSpeed = some speed ∧ speed ∈ part.speeds := by
  obtain ⟨speed, hspeed⟩ := Option.isSome_iff_exists.mp (isSome_min?_of_ne_nil part.speeds_ne)
  exact ⟨speed, hspeed, min?_mem hspeed⟩

/-- What the builder asserts of the parts that are added to it. -/
theorem minSpeed_eq_maxSpeed_iff : part.minSpeed = part.maxSpeed ↔ ∃ v, part.HasSpeed v := by
  obtain ⟨low, hlow, hmem⟩ := part.exists_minSpeed
  obtain ⟨high, hhigh⟩ := Option.isSome_iff_exists.mp (isSome_max?_of_ne_nil part.speeds_ne)
  have hle : ∀ speed ∈ part.speeds, low ≤ speed := (le_min?_iff hlow).mp le_rfl
  have hge : ∀ speed ∈ part.speeds, speed ≤ high := (max?_le_iff hhigh).mp le_rfl
  have heq : part.minSpeed = part.maxSpeed ↔ low = high := by
    rw [hlow, maxSpeed, hhigh, Option.some.injEq]
  rw [heq]
  constructor
  · rintro rfl
    exact ⟨low, fun speed hspeed => le_antisymm (hge speed hspeed) (hle speed hspeed)⟩
  · rintro ⟨v, hv⟩
    rw [hv low hmem, hv high (max?_mem hhigh)]

end EnvelopePart

/-! ### Physics -/

def stepAcceleration (lastPos nextPos lastSpeed nextSpeed : K) : Option K :=
  if nextPos - lastPos = 0 then (if lastSpeed = nextSpeed then some 0 else none)
  else some ((nextSpeed * nextSpeed - lastSpeed * lastSpeed) / 2 / (nextPos - lastPos))

/-- The time of a step: infinite at speed zero, not a number when the step has no length either. -/
def interpolateStepTime (lastPos nextPos lastSpeed nextSpeed : K) : Option (WithTop K) := do
  let acceleration ← stepAcceleration lastPos nextPos lastSpeed nextSpeed
  if acceleration = 0 then
    if lastSpeed = 0 then (if nextPos - lastPos = 0 then none else some ⊤)
    else some ((|(nextPos - lastPos) / lastSpeed| : K) : WithTop K)
  else some ((|(nextSpeed - lastSpeed) / acceleration| : K) : WithTop K)

/-! ### Builders of parts -/

structure EnvelopePartBuilder (K Attrs : Type) where
  positions : List K
  speeds : List K
  times : List (WithTop K)
  attrs : Attrs
  lastPos : K
  lastSpeed : K

namespace EnvelopePartBuilder

variable (builder : EnvelopePartBuilder K Attrs)

def isEmpty : Bool := decide (builder.positions.length < 2)

/-- A builder with its first point and its attributes. -/
def init (position speed : K) (attrs : Attrs) : EnvelopePartBuilder K Attrs :=
  ⟨[position], [speed], [], attrs, position, speed⟩

def addStep (position speed : K) : Option (EnvelopePartBuilder K Attrs) := do
  let stepTime ← interpolateStepTime builder.lastPos position builder.lastSpeed speed
  if builder.times.length + 1 ≠ builder.positions.length then none
  else if position = builder.lastPos ∧ speed = builder.lastSpeed then
    (if stepTime = 0 then some builder else none)
  else
    some { builder with
      positions := builder.positions ++ [position]
      speeds := builder.speeds ++ [speed]
      times := builder.times ++ [stepTime]
      lastPos := position
      lastSpeed := speed }

def build : Option (EnvelopePart K Attrs) :=
  EnvelopePart.new builder.attrs builder.positions builder.speeds builder.times

end EnvelopePartBuilder

/-! ### Envelopes -/

/-- The parts follow each other in space. -/
structure Envelope (K Attrs : Type) [Field K] [LinearOrder K] where
  parts : List (EnvelopePart K Attrs)
  parts_ne : parts ≠ []
  contiguous : parts.IsChain fun a b => a.endPos = b.beginPos

def Envelope.make (parts : List (EnvelopePart K Attrs)) : Option (Envelope K Attrs) :=
  if h : parts ≠ [] ∧ parts.IsChain fun a b => a.endPos = b.beginPos then some ⟨parts, h.1, h.2⟩
  else none

/-! ### Flat parts -/

/-- One step at one speed. -/
structure Flat (part : EnvelopePart K Attrs) (start stop speed : K) : Prop where
  positions : part.positions = [start, stop]
  speeds : part.speeds = [speed, speed]

namespace Flat

variable {part : EnvelopePart K Attrs} {start stop speed : K}

variable (h : Flat part start stop speed)

include h in
theorem beginPos_eq : part.beginPos = start := by
  simp only [EnvelopePart.beginPos, h.positions, head_cons]

include h in
theorem endPos_eq : part.endPos = stop := by
  simp [EnvelopePart.endPos, h.positions]

include h in
theorem start_lt_stop : start < stop := by
  have hincreasing := part.increasing
  rw [h.positions] at hincreasing
  simpa using hincreasing

include h in
theorem hasSpeed : part.HasSpeed speed := by
  simp [EnvelopePart.HasSpeed, h.speeds]

end Flat

section Build

variable [IsStrictOrderedRing K] {start stop speed : K}

theorem exists_stepTime (hlt : start < stop) : ∃ time, 0 ≤ time ∧
    interpolateStepTime start stop speed speed = some time := by
  have hne : stop - start ≠ 0 := sub_ne_zero.mpr hlt.ne'
  have hacceleration : stepAcceleration start stop speed speed = some 0 := by
    rw [stepAcceleration, if_neg hne, sub_self, zero_div, zero_div]
  rw [interpolateStepTime, hacceleration]
  by_cases hspeed : speed = 0
  · exact ⟨⊤, le_top, by simp [hspeed, hne]⟩
  · refine ⟨((|(stop - start) / speed| : K) : WithTop K), ?_, by simp [hspeed]⟩
    exact_mod_cast abs_nonneg _

/-- A builder with one point, closed further on at the same speed. -/
theorem exists_build_addStep (attrs : Attrs) (hlt : start < stop) (hspeed : 0 ≤ speed) :
    ∃ builder part, (EnvelopePartBuilder.init start speed attrs).addStep stop speed = some builder ∧
      builder.isEmpty = false ∧ builder.build = some part ∧ Flat part start stop speed := by
  obtain ⟨time, htime, hstep⟩ := @exists_stepTime K _ _ _ start stop speed hlt
  have hsane : [start, stop] ≠ [] ∧ [start, stop].length = [speed, speed].length ∧
      [time].length + 1 = [start, stop].length ∧ (∀ s ∈ [speed, speed], 0 ≤ s) ∧
      (∀ t ∈ [time], 0 ≤ t) ∧ [start, stop].IsChain (· < ·) := by
    simp [hlt, hspeed, htime]
  refine ⟨⟨[start, stop], [speed, speed], [time], attrs, stop, speed⟩,
    ⟨attrs, [start, stop], [speed, speed], [time], hsane.1, hsane.2.1, hsane.2.2.1, hsane.2.2.2.1,
      hsane.2.2.2.2.1, hsane.2.2.2.2.2⟩, ?_, rfl, ?_, rfl, rfl⟩
  · simp [EnvelopePartBuilder.addStep, EnvelopePartBuilder.init, hstep, hlt.ne']
  · rw [EnvelopePartBuilder.build, EnvelopePart.new, dif_pos hsane]

end Build

end Parts

end Osrd.EnvelopeSim
