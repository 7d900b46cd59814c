import Osrd.EnvelopeSim.Part
import Osrd.Lib.EdgeWalk
import Mathlib.Data.List.Sort

/-! Model of the most restrictive speed profile (`MRSPEnvelopeBuilder.java`): a sweep over the begins and the
    ends of flat parts that keeps the part with the lowest speed.

    Parts are objects: the sweep compares them by reference, and takes an ended part out of its list by
    equality. The parts are on a heap, and a reference stands for its address. The changes are sorted by
    position, begins before ends, so that a turn of the loop handles either the begins or the ends of a
    position; a part that ends where another begins is still in the list when the other comes in. -/

namespace Osrd.EnvelopeSim.Mrsp

/-! ### The code -/

inductive EnvelopeChangeType
  | BEGIN
  | END
deriving DecidableEq

def EnvelopeChangeType.priority : EnvelopeChangeType → ℕ
  | .BEGIN => 0
  | .END => 1

structure EnvelopeChange (K Ref : Type) where
  position : K
  part : Ref
  type : EnvelopeChangeType

section Code

variable {K Attrs Ref : Type} [Field K] [LinearOrder K]

/-- The order of the changes. -/
def EnvelopeChange.le (a b : EnvelopeChange K Ref) : Prop :=
  a.position < b.position ∨ (a.position = b.position ∧ a.type.priority ≤ b.type.priority)

instance (a b : EnvelopeChange K Ref) : Decidable (a.le b) := inferInstanceAs (Decidable (_ ∨ _))

/-- The fields of the builder, except the index of the next change. -/
structure MRSPEnvelopeBuilder (K Attrs Ref : Type) [Field K] [LinearOrder K] where
  currentMinPart : Option Ref
  /-- `none` is infinity. -/
  currentMinSpeed : Option K
  buildResult : List (EnvelopePart K Attrs)
  currentPartBuilder : Option (EnvelopePartBuilder K Attrs)
  activeParts : List Ref

variable (heap : Ref → EnvelopePart K Attrs)

/-- The two changes of a part. -/
def changesOf (part : Ref) : List (EnvelopeChange K Ref) :=
  [⟨(heap part).beginPos, part, .BEGIN⟩, ⟨(heap part).endPos, part, .END⟩]

/-- A part is added, if it passes the assertions. -/
def addPart (changes : List (EnvelopeChange K Ref)) (part : Ref) :
    Option (List (EnvelopeChange K Ref)) :=
  if (heap part).stepCount = 1 ∧ (heap part).minSpeed = (heap part).maxSpeed then
    some (changes ++ changesOf heap part)
  else none

namespace MRSPEnvelopeBuilder

variable (s : MRSPEnvelopeBuilder K Attrs Ref)

def flushResultPart : Option (MRSPEnvelopeBuilder K Attrs Ref) :=
  match s.currentPartBuilder with
  | none => some s
  | some builder =>
      if builder.isEmpty then some s
      else do
        let part ← builder.build
        return { s with buildResult := s.buildResult ++ [part], currentPartBuilder := none }

def newResultPart (newMinPart : Ref) (initialPosition initialSpeed : K) :
    Option (MRSPEnvelopeBuilder K Attrs Ref) := do
  let s ← s.flushResultPart
  return { s with
    currentPartBuilder := some (.init initialPosition initialSpeed (heap newMinPart).attrs) }

/-- A step of the current part, to the position. -/
def addStep (position : K) (speed : Option K) : Option (MRSPEnvelopeBuilder K Attrs Ref) := do
  let builder ← s.currentPartBuilder
  let speed ← speed
  let builder ← builder.addStep position speed
  return { s with currentPartBuilder := some builder }

/-- A speed is below another one. -/
def below : Option K → Option K → Bool
  | some x, some y => decide (x < y)
  | some _, none => true
  | none, _ => false

/-- The loop over the active parts: the first part with the lowest speed. -/
def minimum : Option K × Option Ref → List Ref → Option K × Option Ref :=
  List.foldl fun current env =>
    if below (heap env).minSpeed current.1 then ((heap env).minSpeed, some env) else current

variable [DecidableEq Ref]

def updateMinPart (currentPosition : K) : Option (MRSPEnvelopeBuilder K Attrs Ref) :=
  if s.activeParts.isEmpty then
    (if s.currentMinPart.isNone then some s else none)
  else
    let current := minimum heap (none, s.currentMinPart) s.activeParts
    if s.currentMinPart = current.2 then some { s with currentMinSpeed := current.1 }
    else do
      let ended ← (if s.currentMinPart.isSome then s.addStep currentPosition s.currentMinSpeed
        else some s)
      let newMinPart ← current.2
      let newMinSpeed ← current.1
      { ended with currentMinPart := current.2, currentMinSpeed := current.1 }.newResultPart heap
        newMinPart currentPosition newMinSpeed

def processCurveStarts (currentPosition : K) :
    MRSPEnvelopeBuilder K Attrs Ref → List (EnvelopeChange K Ref) →
    MRSPEnvelopeBuilder K Attrs Ref × List (EnvelopeChange K Ref)
  | s, [] => (s, [])
  | s, change :: changes =>
      if change.type ≠ .BEGIN ∨ currentPosition < change.position then (s, change :: changes)
      else processCurveStarts currentPosition
        { s with activeParts := s.activeParts ++ [change.part] } changes

/-- The current part ends. -/
def endMinPart (currentPosition : K) : Option (MRSPEnvelopeBuilder K Attrs Ref) := do
  let s ← s.addStep currentPosition s.currentMinSpeed
  let s ← s.flushResultPart
  return { s with currentMinPart := none }

variable [DecidableEq Attrs]

/-- The first part of the list that equals the ended one is removed. -/
def processCurveEnds (currentPosition : K) :
    MRSPEnvelopeBuilder K Attrs Ref → List (EnvelopeChange K Ref) →
    Option (MRSPEnvelopeBuilder K Attrs Ref × List (EnvelopeChange K Ref))
  | s, [] => some (s, [])
  | s, change :: changes =>
      if change.type ≠ .END ∨ currentPosition < change.position then some (s, change :: changes)
      else do
        let s := { s with activeParts := s.activeParts.eraseP fun r => heap r = heap change.part }
        let s ← (if s.currentMinPart = some change.part then s.endMinPart currentPosition else some s)
        processCurveEnds currentPosition s changes

/-- The loop of `build`, with as many turns as there are changes left at most. -/
def buildLoop : ℕ → MRSPEnvelopeBuilder K Attrs Ref → List (EnvelopeChange K Ref) →
    Option (MRSPEnvelopeBuilder K Attrs Ref)
  | _, s, [] => some s
  | 0, _, _ :: _ => none
  | turns + 1, s, change :: changes => do
      let ended ← processCurveEnds heap change.position s (change :: changes)
      let started := processCurveStarts change.position ended.1 ended.2
      let s ← started.1.updateMinPart heap change.position
      buildLoop turns s started.2

end MRSPEnvelopeBuilder

variable [DecidableEq Ref] [DecidableEq Attrs]

/-- The envelope of the parts whose changes have been added. -/
def build (changes : List (EnvelopeChange K Ref)) : Option (Envelope K Attrs) := do
  let changes := changes.insertionSort EnvelopeChange.le
  let s ← MRSPEnvelopeBuilder.buildLoop heap changes.length ⟨none, none, [], none, []⟩ changes
  Envelope.make s.buildResult

end Code

end Osrd.EnvelopeSim.Mrsp
