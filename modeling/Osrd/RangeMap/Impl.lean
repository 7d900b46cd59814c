import Mathlib.Data.List.Sort
import Osrd.Lib.BinarySearch

/-! Model of `DistanceRangeMapImpl` (`core/osrd-mp/.../utils/DistanceRangeMapImpl.kt`).

    The map keeps two lists edited in place, `bounds` and `values`; range `i` is
    `[bounds[i], bounds[i + 1])` and has the value `values[i]`, `none` being Kotlin's `null` (a gap).
    Every mutation is a function from the state before to the state after, and `none` in the outer
    `Option` is a thrown exception (a failed `require`, an index out of bounds, a `!!` on `null`).
    Index loops over the two lists are written as recursions that walk both lists at once. -/

namespace Osrd.RangeMap

/-! ### Distances -/

/-- A distance: an inlined 64-bit number of millimeters. -/
@[ext] structure Distance where
  millimeters : Int64
  deriving DecidableEq

namespace Distance

theorem toInt_injective : Function.Injective (fun d : Distance => d.millimeters.toInt) := by
  rintro ⟨a⟩ ⟨b⟩ h
  exact congrArg mk (Int64.toInt_inj.mp h)

/-- `compareTo` compares the millimeters as signed numbers. -/
instance : LinearOrder Distance := LinearOrder.lift' _ toInt_injective

/-- `Long` addition: it wraps around. -/
def plus (a b : Distance) : Distance := ⟨a.millimeters + b.millimeters⟩

theorem lt_iff_toInt {a b : Distance} : a < b ↔ a.millimeters.toInt < b.millimeters.toInt := Iff.rfl

end Distance

/-! ### The two lists and the elementary edits -/

/-- One range of constant value, as the iterator yields it. -/
structure RangeMapEntry (T : Type) where
  lower : Distance
  upper : Distance
  value : T
  deriving DecidableEq

structure DistanceRangeMapImpl (T : Type) where
  bounds : List Distance
  values : List (Option T)
  deriving DecidableEq

namespace DistanceRangeMapImpl

variable {T : Type}

/-- The map without any entry. -/
def empty : DistanceRangeMapImpl T := ⟨[], []⟩

variable (m : DistanceRangeMapImpl T)

def isEmpty : Bool := m.bounds.isEmpty

def lowerBound : Option Distance := m.bounds.head?

def upperBound : Option Distance := m.bounds.getLast?

/-- `MutableList.add(index, element)` at the index both transition functions compute. -/
def insertAt (i : ℕ) (offset : Distance) (newValue : Option T) : DistanceRangeMapImpl T :=
  ⟨m.bounds.insertIdx i offset, m.values.insertIdx (min i m.values.length) newValue⟩

/-- Put a new bound and a matching value at `offset`, before the existing transition there. -/
def putTransitionBefore (offset : Distance) (newValue : Option T) : DistanceRangeMapImpl T :=
  m.insertAt (m.bounds.findIdx (fun b => ¬ b < offset)) offset newValue

/-- Put a new bound and a matching value at `offset`, after the existing transition there. -/
def putTransitionAfter (offset : Distance) (newValue : Option T) : DistanceRangeMapImpl T :=
  m.insertAt (m.bounds.findIdx (fun b => ¬ b ≤ offset)) offset newValue

/-- Deletion loop of `putOptional`: drop each bound strictly inside the range, with its value. -/
def deleteInside (lower upper : Distance) : List Distance → List (Option T) →
    Option (List Distance × List (Option T))
  | [], values => some ([], values)
  | b :: bounds, v :: values => do
      let r ← deleteInside lower upper bounds values
      if lower < b ∧ b < upper then some r else some (b :: r.1, v :: r.2)
  | b :: bounds, [] => do
      let r ← deleteInside lower upper bounds []
      -- `values.removeAt(i)` past the end throws
      if lower < b ∧ b < upper then none else some (b :: r.1, r.2)

/-- First loop of `mergeAdjacent`, at bound `b`: drop the ranges of length 0. -/
def mergeZeroLength : Distance → List Distance → List (Option T) → Option (List Distance × List (Option T))
  | b, [], values => some ([b], values)
  | b, b' :: bounds, v :: values =>
      if b = b' then mergeZeroLength b bounds values
      else do
        let r ← mergeZeroLength b' bounds values
        some (b :: r.1, v :: r.2)
  | b, b' :: bounds, [] =>
      if b = b' then none
      else do
        let r ← mergeZeroLength b' bounds []
        some (b :: r.1, r.2)

section Values

variable [DecidableEq T]

/-- Second loop of `mergeAdjacent`, at a range with value `v` (`bounds` are the bounds after its lower
    one): join it with the next range when both have the same value. -/
def mergeIdentical : Option T → List Distance → List (Option T) → Option (List Distance × List (Option T))
  | v, bounds, [] => some (bounds, [v])
  | v, b' :: bounds, v' :: values =>
      if v = v' then mergeIdentical v' bounds values
      else do
        let r ← mergeIdentical v' bounds values
        some (b' :: r.1, v :: r.2)
  | v, [], v' :: values =>
      if v = v' then none
      else do
        let r ← mergeIdentical v' [] values
        some (r.1, v :: r.2)

variable (m : DistanceRangeMapImpl T)

/-- Merges adjacent values, removes 0-length ranges. -/
def mergeAdjacent : Option (DistanceRangeMapImpl T) := do
  let m ← match m.bounds with
    | [] => some m
    | b :: bounds =>
      (mergeZeroLength b bounds m.values).map fun r => (⟨r.1, r.2⟩ : DistanceRangeMapImpl T)
  let m ← match m.values with
    | [] => some m
    | v :: values =>
      (mergeIdentical v m.bounds.tail values).map fun r =>
        (⟨m.bounds.take 1 ++ r.1, r.2⟩ : DistanceRangeMapImpl T)
  -- a single bound with no range left
  if m.values.isEmpty && 0 < m.bounds.length then some { m with bounds := m.bounds.eraseIdx 0 }
  else some m

/-- Removes a leading gap. -/
def dropFirstNull : DistanceRangeMapImpl T :=
  if m.values.head? = some none then ⟨m.bounds.eraseIdx 0, m.values.eraseIdx 0⟩ else m

/-- Removes a trailing gap. -/
def dropLastNull : DistanceRangeMapImpl T :=
  if m.values.getLast? = some none then ⟨m.bounds.dropLast, m.values.dropLast⟩ else m

/-- Ensures that the internal state is consistent: one more bound than values, coalesced ranges, no
    `null` at either end. -/
def ensureInvariants : Option (DistanceRangeMapImpl T) := do
  guard (m.bounds.length = m.values.length + 1 ∨ (m.bounds = [] ∧ m.values = []))
  let m ← m.mergeAdjacent
  let m := m.dropFirstNull.dropLastNull
  some (if m.values.isEmpty then { m with bounds := [] } else m)

end Values

/-! ### Reading -/

/-- `values[i]`, which throws out of bounds. -/
def valueAt (i : ℤ) : Option (Option T) :=
  if i < 0 then none else m.values[i.toNat]?

/-- Value at an offset; at the upper end of a range that nothing follows, the value of that range. -/
def get (offset : Distance) : Option (Option T) :=
  let i := BinarySearch.binarySearch m.bounds (fun b => compare b offset)
  if i = (m.bounds.length : ℤ) - 1 then some m.values.getLast?.join
  else if 0 ≤ i then do
    match ← m.valueAt i with
    | some v => some (some v)
    | none => m.valueAt (i - 1)
  else if i = -1 ∨ i = -(m.bounds.length : ℤ) - 1 then some none
  else m.valueAt (-i - 2)

/-- The iterator (`IteratorImpl`): skips a gap by moving the cursor once more, and then expects a
    value (`!!`). -/
def iterate : List Distance → List (Option T) → Option (List (RangeMapEntry T))
  | _, [] => some []
  | b :: b' :: bounds, some v :: values => do
      let es ← iterate (b' :: bounds) values
      some (⟨b, b', v⟩ :: es)
  | _ :: b :: b' :: bounds, none :: some v :: values => do
      let es ← iterate (b' :: bounds) values
      some (⟨b, b', v⟩ :: es)
  | _, _ => none

/-- All the entries, in the iterator's order. -/
def toList : Option (List (RangeMapEntry T)) :=
  iterate m.bounds m.values

/-- The calls `forEach` makes: one for each range whose value is not `null`. -/
def forEachCalls : List Distance → List (Option T) → Option (List (RangeMapEntry T))
  | _, [] => some []
  | b :: b' :: bounds, some v :: values => do
      let es ← forEachCalls (b' :: bounds) values
      some (⟨b, b', v⟩ :: es)
  | _ :: bounds, none :: values => forEachCalls bounds values
  | _, _ => none

def forEach : Option (List (RangeMapEntry T)) :=
  forEachCalls m.bounds m.values

/-! ### Writing -/

/-- The two transitions `putOptional` adds to a map with entries, by the place of the range: above the
    map, below it, or overlapping it. -/
def insertTransitions (lowerBound upperBound lower upper : Distance)
    (value previousNextValue : Option T) : DistanceRangeMapImpl T :=
  if upperBound ≤ lower then
    (m.putTransitionBefore lower none).putTransitionBefore upper value
  else if upper ≤ lowerBound then
    (m.putTransitionBefore lower value).putTransitionBefore upper none
  else
    (m.putTransitionAfter lower value).putTransitionBefore upper previousNextValue

section Mutations

variable [DecidableEq T]

variable (m : DistanceRangeMapImpl T) (lower upper : Distance)

/-- Sets the value between the two distances; `none` deletes the ranges. -/
def putOptional (value : Option T) : Option (DistanceRangeMapImpl T) := do
  let m ← match m.lowerBound, m.upperBound with
    | some lowerBound, some upperBound => do
        let previousNextValue ← m.get upper
        let m := m.insertTransitions lowerBound upperBound lower upper value previousNextValue
        (deleteInside lower upper m.bounds m.values).map fun r =>
          (⟨r.1, r.2⟩ : DistanceRangeMapImpl T)
    | _, _ => some ⟨m.bounds ++ [lower, upper], m.values ++ [value]⟩
  m.ensureInvariants

/-- Sets the value between the lower and upper distances. -/
def put (value : T) : Option (DistanceRangeMapImpl T) :=
  m.putOptional lower upper (some value)

/-- Removes all values outside the given range. -/
def truncate (beginOffset endOffset : Distance) : Option (DistanceRangeMapImpl T) :=
  match m.lowerBound with
  | none => some m
  | some lowerBound => do
      let m ← m.putOptional lowerBound beginOffset none
      match m.upperBound with
      | none => some m
      | some upperBound => m.putOptional endOffset upperBound none

/-- Shifts the positions by adding the given value. -/
def shiftPositions (offset : Distance) : DistanceRangeMapImpl T :=
  { m with bounds := m.bounds.map (·.plus offset) }

/-- A new map of the ranges between two distances (`require(lower < upper)`). -/
def subMap : Option (DistanceRangeMapImpl T) := do
  guard (lower < upper)
  m.truncate lower upper

def clear (_ : DistanceRangeMapImpl T) : DistanceRangeMapImpl T := empty

/-! ### `putMany`: a sweep over the sorted bounds -/

/-- Groups the consecutive pairs with the same first component (`nextKey`, `nextValues` are the group
    being built). -/
def groupByConsecutiveFirst {U V : Type} [DecidableEq U] : List (U × V) → List (U × List V)
  | [] => []
  | (key, value) :: pairs => go key [value] pairs
where
  go (nextKey : U) (nextValues : List V) : List (U × V) → List (U × List V)
    | [] => [(nextKey, nextValues)]
    | (key, value) :: pairs =>
      if key = nextKey then go nextKey (nextValues ++ [value]) pairs
      else (nextKey, nextValues) :: go key [value] pairs

def groupByConsecutiveSecond {U V : Type} [DecidableEq V] (pairs : List (U × V)) : List (V × List U) :=
  groupByConsecutiveFirst (pairs.map Prod.swap)

variable (queue : List ℕ) (element : ℕ)

/-- The local `PriorityQueue` of entry indices: a list kept in decreasing order. -/
def queueSearch : ℤ :=
  BinarySearch.binarySearch queue (fun it => compare element it)

def queueContains : Bool := 0 ≤ queueSearch queue element

def queueAdd : List ℕ :=
  let r := queueSearch queue element
  queue.insertIdx (if r < 0 then -r - 1 else r).toNat element

def queueRemove : List ℕ :=
  let r := queueSearch queue element
  if r < 0 then queue else queue.eraseIdx r.toNat

/-- An entry index is added at one of its bounds and removed at the other. -/
def queueToggle (index : ℕ) : List ℕ :=
  if queueContains queue index then queueRemove queue index else queueAdd queue index

/-- The order of `boundEntries`: by distance, then by entry index. -/
def boundEntryLe (a b : Distance × ℕ) : Prop :=
  a.1 < b.1 ∨ (a.1 = b.1 ∧ a.2 ≤ b.2)

instance : DecidableRel boundEntryLe := fun _ _ => inferInstanceAs (Decidable (_ ∨ _))

/-- Both bounds of each entry, tagged with the entry's index. -/
def boundEntries (allEntries : List (RangeMapEntry T)) : List (Distance × ℕ) :=
  allEntries.zipIdx.flatMap fun p => [(p.1.lower, p.2), (p.1.upper, p.2)]

/-- The sweep: at each bound, the value of the latest entry that is open after it. -/
def sweep (allEntries : List (RangeMapEntry T)) : List ℕ → List (Distance × List ℕ) →
    List (Distance × Option T)
  | _, [] => []
  | entryQueue, (bound, indices) :: entriesByBound =>
      let entryQueue := indices.foldl queueToggle entryQueue
      let value := entryQueue.head?.bind fun bestIndex => allEntries[bestIndex]?.map (·.value)
      (bound, value) :: sweep allEntries entryQueue entriesByBound

/-- `Iterable.min()`, on the never empty groups. -/
def minBound : List Distance → Option Distance
  | [] => none
  | b :: bs => some (bs.foldl min b)

/-- Sets many values: the map is rebuilt from its entries and the new ones. -/
def putMany (entries : List (RangeMapEntry T)) : Option (DistanceRangeMapImpl T) := do
  let this ← m.toList
  let allEntries := this ++ entries.filter fun e => e.lower < e.upper
  let entriesByBound := groupByConsecutiveFirst ((boundEntries allEntries).insertionSort boundEntryLe)
  let nonEmptyBoundValues := sweep allEntries [] entriesByBound
  let boundsByValue := groupByConsecutiveSecond nonEmptyBoundValues
  let bounds ← boundsByValue.mapM fun group => minBound group.2
  let values := boundsByValue.map fun group => group.1
  some ⟨bounds, values.dropLast⟩

/-! ### Updates by another map -/

/-- The parts of `[lower, upper)` that the ranges of `subMap` leave uncovered, and the ranges
    themselves: each gap goes to `gap`, each range to `overlap` (`none` when it is not added). -/
def splitBy {U : Type} (gap : T) (overlap : U → Option T) (upper : Distance) :
    Distance → List (RangeMapEntry U) → List (RangeMapEntry T)
  | lastEnd, [] => if lastEnd < upper then [⟨lastEnd, upper, gap⟩] else []
  | lastEnd, s :: subMap =>
      (if lastEnd < s.lower then [⟨lastEnd, s.lower, gap⟩] else []) ++
        ((overlap s.value).map fun v => ⟨s.lower, s.upper, v⟩).toList ++
        splitBy gap overlap upper s.upper subMap

/-- Updates the map with another one, keeping only the intersections. -/
def updateMapIntersection {U : Type} (m : DistanceRangeMapImpl T)
    (update : DistanceRangeMapImpl U) (updateFunction : T → U → T) :
    Option (DistanceRangeMapImpl T) := do
  (← update.toList).foldlM (fun m u => do
    let sub ← m.subMap u.lower u.upper
    (← sub.forEach).foldlM (fun m s => m.put s.lower s.upper (updateFunction s.value u.value)) m) m

/-- The entries `updateMap` makes from one range of `update`. -/
def updateEntries (updateFunction : T → T → T) (default : T → T)
    (u : RangeMapEntry T) : Option (List (RangeMapEntry T)) := do
  let sub ← m.subMap u.lower u.upper
  if sub.isEmpty then some [⟨u.lower, u.upper, default u.value⟩]
  else some (splitBy (default u.value) (fun s => some (updateFunction s u.value)) u.upper u.lower
    (← sub.toList))

/-- The entries `updateMap` keeps from one of its own ranges: what `update` does not cover. -/
def ownEntries (update : DistanceRangeMapImpl T) (default : T → T) (t : RangeMapEntry T) :
    Option (List (RangeMapEntry T)) := do
  let sub ← update.subMap t.lower t.upper
  if sub.isEmpty then some [⟨t.lower, t.upper, default t.value⟩]
  else some (splitBy (default t.value) (fun _ => none) t.upper t.lower (← sub.toList))

/-- Updates the map with another one. -/
def updateMap (m update : DistanceRangeMapImpl T) (updateFunction : T → T → T) (default : T → T) :
    Option (DistanceRangeMapImpl T) := do
  let fromUpdate ← (← update.toList).mapM (m.updateEntries updateFunction default)
  let fromThis ← (← m.forEach).mapM (update.ownEntries default)
  m.clear.putMany (fromUpdate.flatten ++ fromThis.flatten)

end Mutations

end DistanceRangeMapImpl

end Osrd.RangeMap
