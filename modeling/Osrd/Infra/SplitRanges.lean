import Osrd.Lib.JsonPatch
import Mathlib.Data.List.Perm.Basic
import Mathlib.Algebra.Order.Ring.Int

/-! Model of `get_split_patch_operations_for_applicable_ranges` and of
    `get_split_patch_operations_for_ranges` (`editoast/src/views/infra/edition.rs`): the JSON patch of the
    ranges on a track that is split in two, and when it yields the ranges on the two halves.

    The operations name the ranges by their index in the original list, and are applied in turn. A range
    on both halves is removed and its two parts go to the end of the list, so every later operation is one
    place off. The patch is right exactly when no range of the split track comes after one on both halves.

    Nothing depends on what the offsets are: any type with a comparison, a subtraction and a zero will do,
    floating-point numbers included. -/

namespace Osrd.Infra

open JsonPatch Nat List
open JsonPatch.Operation (apply under)

/-! ### Ranges -/

inductive ApplicableDirections
  | StartToStop
  | StopToStart
  | Both
deriving DecidableEq

inductive Direction
  | StartToStop
  | StopToStart
deriving DecidableEq

/-- The field of a range that says its direction: its name and its text. -/
class DirectionField (D : Type) where
  name : String
  text : D → String

instance : DirectionField ApplicableDirections where
  name := "applicable_directions"
  text
    | .StartToStop => "START_TO_STOP"
    | .StopToStart => "STOP_TO_START"
    | .Both => "BOTH"

instance : DirectionField Direction where
  name := "direction"
  text
    | .StartToStop => "START_TO_STOP"
    | .StopToStart => "STOP_TO_START"

structure DirectedRange (D K : Type) where
  track : String
  beginAt : K
  endAt : K
  direction : D
deriving DecidableEq

abbrev ApplicableDirectionsTrackRange (K : Type) := DirectedRange ApplicableDirections K

abbrev DirectionalTrackRange (K : Type) := DirectedRange Direction K

variable {D K : Type}

section Json

variable [DirectionField D]

def DirectedRange.toJson (range : DirectedRange D K) : Value K :=
  .object [("track", .str range.track), ("begin", .num range.beginAt), ("end", .num range.endAt),
    (DirectionField.name D, .str (DirectionField.text range.direction))]

/-- The JSON array of the ranges. -/
def jsonRanges (ranges : List (DirectedRange D K)) : Value K := .array (ranges.map (·.toJson))

/-! Replacing one field of one range. -/

theorem apply_replace {items : List (DirectedRange D K)} {index : ℕ} {name : String} {v : Value K}
    {f : DirectedRange D K → DirectedRange D K}
    (hfield : ∀ item : DirectedRange D K, (child (.key name) item.toJson).isSome ∧
      setChild v (.key name) item.toJson = (f item).toJson) :
    apply (jsonRanges items) (.replace [.index index, .key name] v) =
      items[index]?.map fun item => jsonRanges (items.set index (f item)) := by
  simp only [apply, JsonPatch.modify, jsonRanges, child_index, getElem?_map]
  cases hitem : items[index]? with
  | none => rfl
  | some item =>
    obtain ⟨hsome, hset⟩ := hfield item
    obtain ⟨old, hold⟩ := Option.isSome_iff_exists.mp hsome
    simp [hold, hset]

variable (items : List (DirectedRange D K)) (index : ℕ)

theorem apply_replace_track (track : String) :
    apply (jsonRanges items) (.replace [.index index, .key "track"] (.str track)) =
      items[index]?.map fun item => jsonRanges (items.set index { item with track := track }) :=
  apply_replace fun _ => ⟨rfl, rfl⟩

theorem apply_replace_begin (offset : K) :
    apply (jsonRanges items) (.replace [.index index, .key "begin"] (.num offset)) =
      items[index]?.map fun item => jsonRanges (items.set index { item with beginAt := offset }) :=
  apply_replace fun _ => ⟨rfl, rfl⟩

theorem apply_replace_end (offset : K) :
    apply (jsonRanges items) (.replace [.index index, .key "end"] (.num offset)) =
      items[index]?.map fun item => jsonRanges (items.set index { item with endAt := offset }) :=
  apply_replace fun _ => ⟨rfl, rfl⟩

end Json

/-! ### Splits -/

/-- Where a track is split, and the tracks on the two sides. -/
structure Split (K : Type) where
  tracksectionId : String
  distance : K
  leftTracksectionId : String
  rightTracksectionId : String

/-- The number of ranges on the split track. -/
def Split.onTrack (split : Split K) (items : List (DirectedRange D K)) : ℕ :=
  items.countP (·.track = split.tracksectionId)

/-- The new tracks are not the split one. -/
structure Split.Fresh (split : Split K) : Prop where
  left : split.leftTracksectionId ≠ split.tracksectionId
  right : split.rightTracksectionId ≠ split.tracksectionId

/-- From the index on, the items are ranges that come later than the next one, then items that are not on
    the split track. -/
def Split.Shifted (split : Split K) (ranges : List (DirectedRange D K)) (index : ℕ)
    (items : List (DirectedRange D K)) : Prop :=
  ∃ k parts, 0 < k ∧ items.drop index = ranges.drop k ++ parts ∧ split.onTrack parts = 0

variable {split : Split K}

theorem Split.onTrack_append (items items' : List (DirectedRange D K)) :
    split.onTrack (items ++ items') = split.onTrack items + split.onTrack items' :=
  countP_append

variable {item : DirectedRange D K}

theorem Split.onTrack_cons (h : item.track = split.tracksectionId) (items : List (DirectedRange D K)) :
    split.onTrack (item :: items) = split.onTrack items + 1 :=
  countP_cons_of_pos (by simpa using h)

theorem Split.onTrack_cons_of_ne (h : item.track ≠ split.tracksectionId) (items : List (DirectedRange D K)) :
    split.onTrack (item :: items) = split.onTrack items :=
  countP_cons_of_neg (by simpa using h)

theorem Split.onTrack_singleton_le (item : DirectedRange D K) : split.onTrack [item] ≤ 1 :=
  countP_le_length

theorem Split.onTrack_drop {items : List (DirectedRange D K)} (h : split.onTrack items = 0) (n : ℕ) :
    split.onTrack (items.drop n) = 0 := by
  rw [onTrack, countP_eq_zero] at h ⊢
  exact fun item hitem => h item (mem_of_mem_drop hitem)

theorem Split.shifted_of_drop {ranges items parts : List (DirectedRange D K)} {index k n : ℕ}
    (hpos : 0 < k + n) (h : items.drop index = (ranges.drop k ++ parts).drop n)
    (hparts : split.onTrack parts = 0) : split.Shifted ranges index items := by
  refine ⟨k + n, parts.drop (n - (ranges.drop k).length), hpos, ?_, onTrack_drop hparts _⟩
  rw [h, drop_append, drop_drop]

/-- An item on the split track that is met in the place of another is a later range, and the items stay
    shifted. -/
theorem Split.shifted_of_met {ranges items' after parts parts' : List (DirectedRange D K)} {index k n : ℕ}
    (hitem : item.track = split.tracksectionId) (hparts : split.onTrack parts = 0)
    (hparts' : split.onTrack parts' = 0) (hmet : item :: after = ranges.drop k ++ parts)
    (hdrop : items'.drop index = (after ++ parts').drop n) :
    0 < split.onTrack ranges ∧ split.Shifted ranges index items' := by
  cases hlater : ranges.drop k with
  | nil =>
    rw [hlater, nil_append] at hmet
    rw [← hmet, onTrack_cons hitem] at hparts
    exact nomatch hparts
  | cons item' tail =>
    rw [hlater] at hmet
    obtain ⟨rfl, rfl⟩ := cons.inj hmet
    have hmem : item ∈ ranges := mem_of_mem_drop (hlater ▸ mem_cons_self)
    have htail : ranges.drop (k + 1) = tail := by
      rw [← drop_drop, hlater]
      rfl
    have hboth : split.onTrack (parts ++ parts') = 0 := by rw [onTrack_append, hparts, hparts']
    refine ⟨countP_pos_iff.mpr ⟨item, hmem, by simpa using hitem⟩, ?_⟩
    refine shifted_of_drop (k := k + 1) (n := n) (by omega) ?_ hboth
    rw [hdrop, htail, ← append_assoc]
    rfl

variable {items items' : List (DirectedRange D K)}

/-- Equal arrays have as many ranges on the split track. -/
theorem Split.onTrack_congr [DirectionField D] (h : jsonRanges items = jsonRanges items') :
    split.onTrack items = split.onTrack items' := by
  have htracks := congrArg (map (child (.key "track"))) (Value.array.inj h)
  rw [map_map, map_map] at htracks
  have hinj : Function.Injective fun track : String => some (Value.str track : Value K) :=
    fun _ _ heq => Value.str.inj (Option.some.inj heq)
  have hmap : items.map (·.track) = items'.map (·.track) := by
    apply map_injective_iff.mpr hinj
    rw [map_map, map_map]
    exact htracks
  have hcount : ∀ l : List (DirectedRange D K),
      split.onTrack l = (l.map (·.track)).countP (· = split.tracksectionId) := by
    intro l
    rw [countP_map]
    rfl
  rw [hcount, hcount, hmap]

variable [LE K] [DecidableLE K] [Sub K] [Zero K]

/-! ### The patch -/

/-- The part on the left of a range on both sides. -/
def Split.leftPart (split : Split K) (range : DirectedRange D K) : DirectedRange D K :=
  { range with track := split.leftTracksectionId, endAt := split.distance }

/-- The part on the right of a range on both sides. -/
def Split.rightPart (split : Split K) (range : DirectedRange D K) : DirectedRange D K :=
  { range with
    track := split.rightTracksectionId, beginAt := 0, endAt := range.endAt - split.distance }

section Json

variable [DirectionField D]

/-- The operations for the range at an index. -/
def rangePatchOperations (split : Split K) (path : List Token) (range : DirectedRange D K)
    (index : ℕ) : List (JsonPatch.Operation K) :=
  if range.track = split.tracksectionId then
    if range.endAt ≤ split.distance then
      [.replace (path ++ [.index index, .key "track"]) (.str split.leftTracksectionId)]
    else if split.distance ≤ range.beginAt then
      [.replace (path ++ [.index index, .key "track"]) (.str split.rightTracksectionId),
        .replace (path ++ [.index index, .key "begin"]) (.num (range.beginAt - split.distance)),
        .replace (path ++ [.index index, .key "end"]) (.num (range.endAt - split.distance))]
    else
      [.remove path (.index index), .add path .last (split.leftPart range).toJson,
        .add path .last (split.rightPart range).toJson]
  else []

def splitPatchOperations (split : Split K) (path : List Token) (ranges : List (DirectedRange D K)) :
    List (JsonPatch.Operation K) :=
  ranges.zipIdx.flatMap fun (range, index) => rangePatchOperations split path range index

def getSplitPatchOperationsForApplicableRanges (split : Split K) (path : List Token)
    (ranges : List (ApplicableDirectionsTrackRange K)) : List (JsonPatch.Operation K) :=
  splitPatchOperations split path ranges

def getSplitPatchOperationsForRanges (split : Split K) (path : List Token)
    (ranges : List (DirectionalTrackRange K)) : List (JsonPatch.Operation K) :=
  splitPatchOperations split path ranges

end Json

/-! ### What the patch is for -/

/-- What becomes of a range: it stays, goes to one side, or is cut in two. -/
def Split.image (split : Split K) (range : DirectedRange D K) : List (DirectedRange D K) :=
  if range.track ≠ split.tracksectionId then [range]
  else if range.endAt ≤ split.distance then [{ range with track := split.leftTracksectionId }]
  else if split.distance ≤ range.beginAt then
    [{ range with
      track := split.rightTracksectionId
      beginAt := range.beginAt - split.distance
      endAt := range.endAt - split.distance }]
  else [split.leftPart range, split.rightPart range]

/-- A range of the split track is on both sides. -/
def Split.Straddles (split : Split K) (range : DirectedRange D K) : Prop :=
  range.track = split.tracksectionId ∧ ¬ range.endAt ≤ split.distance ∧
    ¬ split.distance ≤ range.beginAt

/-- No range of the split track comes after a range on both sides. -/
def Split.StraddlesLast (split : Split K) (ranges : List (DirectedRange D K)) : Prop :=
  ranges.Pairwise fun range range' => split.Straddles range → range'.track ≠ split.tracksectionId

/-- The operations turn the array of the ranges, at a path of the document, into an array of their images
    in some order. -/
def Split.PatchedBy [DirectionField D] (split : Split K) (operations : List (JsonPatch.Operation K))
    (path : List Token) (ranges : List (DirectedRange D K)) (document : Value K) : Prop :=
  ∃ items : List (DirectedRange D K), items.Perm (ranges.flatMap split.image) ∧
    JsonPatch.applyAll operations document =
      JsonPatch.modify (fun _ => some (jsonRanges items)) path document

/-! ### The operations on the list of ranges -/

/-- The operations for the range at an index, on the list of ranges. -/
def Split.turn (split : Split K) (range : DirectedRange D K) (index : ℕ)
    (items : List (DirectedRange D K)) : Option (List (DirectedRange D K)) :=
  if range.track = split.tracksectionId then
    if range.endAt ≤ split.distance then
      items[index]?.map fun item => items.set index { item with track := split.leftTracksectionId }
    else if split.distance ≤ range.beginAt then
      items[index]?.map fun item => items.set index { item with
        track := split.rightTracksectionId
        beginAt := range.beginAt - split.distance
        endAt := range.endAt - split.distance }
    else if index < items.length then
      some (items.eraseIdx index ++ [split.leftPart range, split.rightPart range])
    else none
  else some items

/-- The whole loop, on the list of ranges. -/
def Split.turns (split : Split K) : (ranges : List (DirectedRange D K)) → (index : ℕ) →
    List (DirectedRange D K) → Option (List (DirectedRange D K))
  | [], _, items => some items
  | range :: ranges, index, items =>
      (split.turn range index items).bind (split.turns ranges (index + 1))

/-! ### When the indices are right -/

variable {range : DirectedRange D K}

theorem Split.image_of_straddles (h : split.Straddles range) :
    split.image range = [split.leftPart range, split.rightPart range] := by
  rw [image, if_neg (not_not.mpr h.1), if_neg h.2.1, if_neg h.2.2]

theorem Split.turn_of_straddles (h : split.Straddles range) (before rest : List (DirectedRange D K)) :
    split.turn range before.length (before ++ range :: rest) =
      some (before ++ rest ++ split.image range) := by
  rw [turn, if_pos h.1, if_neg h.2.1, if_neg h.2.2, if_pos (by simp),
    image_of_straddles h, eraseIdx_append_of_length_le (le_refl _)]
  simp

/-- A range that is not on both sides is changed where it is. -/
theorem Split.turn_of_not_straddles (h : ¬ split.Straddles range) (before rest : List (DirectedRange D K)) :
    ∃ range', split.image range = [range'] ∧
      split.turn range before.length (before ++ range :: rest) = some (before ++ range' :: rest) := by
  rw [turn, image]
  by_cases htrack : range.track = split.tracksectionId
  · rw [if_neg (not_not.mpr htrack), if_pos htrack]
    by_cases hleft : range.endAt ≤ split.distance
    · rw [if_pos hleft, if_pos hleft]
      exact ⟨_, rfl, by simp⟩
    · rw [if_neg hleft, if_neg hleft]
      by_cases hright : split.distance ≤ range.beginAt
      · rw [if_pos hright, if_pos hright]
        exact ⟨_, rfl, by simp⟩
      · exact absurd ⟨htrack, hleft, hright⟩ h
  · rw [if_pos htrack, if_neg htrack]
    exact ⟨_, rfl, rfl⟩

/-- Nothing happens for ranges of other tracks. -/
theorem Split.turns_of_other_tracks : ∀ {ranges : List (DirectedRange D K)},
    (∀ range ∈ ranges, range.track ≠ split.tracksectionId) →
    ranges.flatMap split.image = ranges ∧ ∀ index items, split.turns ranges index items = some items
  | [], _ => ⟨rfl, fun _ _ => rfl⟩
  | range :: ranges, h => by
    obtain ⟨himage, hturns⟩ := turns_of_other_tracks (forall_mem_cons.mp h).2
    have htrack := h range mem_cons_self
    refine ⟨?_, fun index items => ?_⟩
    · rw [flatMap_cons, himage, image, if_pos htrack]
      rfl
    · rw [turns, turn, if_neg htrack]
      exact hturns (index + 1) items

theorem Split.turns_straddlesLast : ∀ {ranges : List (DirectedRange D K)},
    split.StraddlesLast ranges → ∀ before : List (DirectedRange D K),
    ∃ items, split.turns ranges before.length (before ++ ranges) = some items ∧
      items.Perm (before ++ ranges.flatMap split.image)
  | [], _, before => ⟨before ++ [], rfl, .refl _⟩
  | range :: ranges, h, before => by
    obtain ⟨hfirst, hrest⟩ := pairwise_cons.mp h
    rw [turns, flatMap_cons]
    by_cases hstraddles : split.Straddles range
    · -- nothing is left to do, so the shift of the indices does no harm
      obtain ⟨himage, hturns⟩ := turns_of_other_tracks fun r hr => hfirst r hr hstraddles
      refine ⟨before ++ ranges ++ split.image range, ?_, ?_⟩
      · rw [turn_of_straddles hstraddles]
        exact hturns _ _
      · rw [himage, append_assoc]
        exact perm_append_comm.append_left before
    · obtain ⟨range', himage, hturn⟩ := turn_of_not_straddles hstraddles before ranges
      obtain ⟨items, hitems, hperm⟩ := turns_straddlesLast hrest (before ++ [range'])
      refine ⟨items, ?_, ?_⟩
      · rw [hturn]
        simpa using hitems
      · rw [himage]
        simpa using hperm

/-! ### When the indices are wrong -/

/-- The operations for a range of the split track change or remove the item at its index, and add no item
    on the split track. -/
theorem Split.turn_cases (hfresh : split.Fresh) {index : ℕ} (htrack : range.track = split.tracksectionId)
    (h : split.turn range index items = some items') :
    ∃ before item after, items = before ++ item :: after ∧ before.length = index ∧
      ((∃ item', item'.track ≠ split.tracksectionId ∧ items' = before ++ item' :: after) ∨
        ∃ parts, split.onTrack parts = 0 ∧ items' = before ++ (after ++ parts)) := by
  have hcut : index < items.length → ∃ before item after,
      items = before ++ item :: after ∧ before.length = index := fun hindex =>
    ⟨items.take index, items[index], items.drop (index + 1), by simp, by simp [hindex.le]⟩
  rw [turn, if_pos htrack] at h
  split at h
  · obtain ⟨item, hitem, rfl⟩ := Option.map_eq_some_iff.mp h
    obtain ⟨before, _, after, rfl, rfl⟩ := hcut (List.getElem?_eq_some_iff.mp hitem).1
    exact ⟨before, _, after, rfl, rfl, .inl ⟨{ item with track := split.leftTracksectionId },
      hfresh.left, by simp⟩⟩
  split at h
  · obtain ⟨item, hitem, rfl⟩ := Option.map_eq_some_iff.mp h
    obtain ⟨before, _, after, rfl, rfl⟩ := hcut (List.getElem?_eq_some_iff.mp hitem).1
    refine ⟨before, _, after, rfl, rfl, .inl ⟨{ item with
      track := split.rightTracksectionId
      beginAt := range.beginAt - split.distance
      endAt := range.endAt - split.distance }, hfresh.right, by simp⟩⟩
  split at h
  · next hindex =>
    cases h
    obtain ⟨before, _, after, rfl, rfl⟩ := hcut hindex
    refine ⟨before, _, after, rfl, rfl, .inr ⟨[split.leftPart range, split.rightPart range], ?_, ?_⟩⟩
    · exact (onTrack_cons_of_ne hfresh.left _).trans (onTrack_cons_of_ne hfresh.right _)
    · rw [eraseIdx_append_of_length_le (le_refl _)]
      simp
  · exact nomatch h

/-- One item fewer is on the split track if the item that is met is, and the items behind it are the same
    but for those added at the end and those that have moved up. -/
theorem Split.turn_spec (hfresh : split.Fresh) {index : ℕ} (htrack : range.track = split.tracksectionId)
    (h : split.turn range index items = some items') : ∃ item after, items.drop index = item :: after ∧
      split.onTrack items = split.onTrack items' + split.onTrack [item] ∧
      ∃ n parts, split.onTrack parts = 0 ∧ items'.drop (index + 1) = (after ++ parts).drop n := by
  obtain ⟨before, item, after, rfl, rfl, hcases⟩ := turn_cases hfresh htrack h
  have hitem : split.onTrack (item :: after) = split.onTrack [item] + split.onTrack after :=
    onTrack_append [item] after
  refine ⟨item, after, drop_left, ?_⟩
  rcases hcases with ⟨item', hitem', rfl⟩ | ⟨parts, hparts, rfl⟩
  · rw [onTrack_append, onTrack_append, onTrack_cons_of_ne hitem', hitem]
    exact ⟨by omega, 0, [], rfl, by simp⟩
  · rw [onTrack_append, onTrack_append, onTrack_append, hitem, hparts]
    exact ⟨by omega, 1, parts, hparts, by rw [← drop_drop, drop_left]⟩

/-- Each range that is left takes at most one item off the split track. -/
theorem Split.onTrack_le (hfresh : split.Fresh) : ∀ {ranges : List (DirectedRange D K)} {index : ℕ}
    {items final : List (DirectedRange D K)}, split.turns ranges index items = some final →
    split.onTrack items ≤ split.onTrack final + split.onTrack ranges
  | [], _, _, _, h => by
    cases h
    exact le_add_right _ _
  | range :: ranges, index, items, final, h => by
    obtain ⟨items', hturn, hturns⟩ := Option.bind_eq_some_iff.mp h
    have ih := onTrack_le hfresh hturns
    by_cases htrack : range.track = split.tracksectionId
    · rw [onTrack_cons htrack]
      obtain ⟨item, -, -, hmet, -⟩ := turn_spec hfresh htrack hturn
      have hone := split.onTrack_singleton_le item
      omega
    · rw [turn, if_neg htrack] at hturn
      cases hturn
      rw [onTrack_cons_of_ne htrack]
      exact ih

/-- Once the indices are off, some item stays on the split track: an operation misses, or the range that it
    meets in the place of its own is missed later. -/
theorem Split.onTrack_pos_of_shifted (hfresh : split.Fresh) : ∀ {ranges : List (DirectedRange D K)}
    {index : ℕ} {items final : List (DirectedRange D K)}, split.Shifted ranges index items →
    0 < split.onTrack ranges → split.onTrack ranges ≤ split.onTrack items →
    split.turns ranges index items = some final → 0 < split.onTrack final
  | [], _, _, _, _, hpos, _, _ => absurd hpos (lt_irrefl 0)
  | range :: ranges, index, items, final, ⟨k + 1, parts, _, hdrop, hparts⟩, hpos, hle, h => by
    obtain ⟨items', hturn, hturns⟩ := Option.bind_eq_some_iff.mp h
    rw [drop_succ_cons] at hdrop
    by_cases htrack : range.track = split.tracksectionId
    · rw [onTrack_cons htrack] at hle
      have hrest := onTrack_le hfresh hturns
      obtain ⟨item, after, hmet, hcount, n, parts', hparts', hdrop'⟩ := turn_spec hfresh htrack hturn
      rw [hmet] at hdrop
      have hnil : split.onTrack ([] : List (DirectedRange D K)) = 0 := rfl
      by_cases hitem : item.track = split.tracksectionId
      · rw [onTrack_cons hitem] at hcount
        obtain ⟨hpos', hshifted⟩ := shifted_of_met hitem hparts hparts' hdrop hdrop'
        exact onTrack_pos_of_shifted hfresh hshifted hpos' (by omega) hturns
      · rw [onTrack_cons_of_ne hitem] at hcount
        omega
    · rw [turn, if_neg htrack] at hturn
      cases hturn
      rw [onTrack_cons_of_ne htrack] at hpos hle
      have hshifted : split.Shifted ranges (index + 1) items :=
        shifted_of_drop (k := k) (n := 1) (succ_pos k)
          (by rw [← hdrop, drop_drop]) hparts
      exact onTrack_pos_of_shifted hfresh hshifted hpos hle hturns

/-- A range of the split track after one on both sides leaves an item on the split track. -/
theorem Split.onTrack_pos_of_not_straddlesLast (hfresh : split.Fresh) :
    ∀ {ranges : List (DirectedRange D K)}, ¬ split.StraddlesLast ranges →
    ∀ {before final : List (DirectedRange D K)},
    split.turns ranges before.length (before ++ ranges) = some final → 0 < split.onTrack final
  | [], h, _, _, _ => absurd .nil h
  | range :: ranges, h, before, final, hturns => by
    rw [turns] at hturns
    by_cases hstraddles : split.Straddles range
    · rw [turn_of_straddles hstraddles, Option.bind_some] at hturns
      have hpos : 0 < split.onTrack ranges := by
        by_contra hzero
        have hnone := countP_eq_zero.mp (Nat.eq_zero_of_not_pos hzero)
        have hother : ∀ r ∈ ranges, r.track ≠ split.tracksectionId := by simpa using hnone
        refine h (pairwise_cons.mpr ⟨fun r hr _ => hother r hr, ?_⟩)
        exact pairwise_of_forall_mem_list fun _ _ r hr _ => hother r hr
      have hparts : split.onTrack (split.image range) = 0 := by
        rw [image_of_straddles hstraddles]
        exact (onTrack_cons_of_ne hfresh.left _).trans
          (onTrack_cons_of_ne hfresh.right _)
      refine onTrack_pos_of_shifted hfresh (shifted_of_drop (k := 0) (n := 1)
        one_pos ?_ hparts) hpos ?_ hturns
      · rw [← drop_drop, append_assoc, drop_left]
        rfl
      · rw [onTrack_append, onTrack_append]
        omega
    · obtain ⟨range', himage, hturn⟩ := turn_of_not_straddles hstraddles before ranges
      rw [hturn, Option.bind_some] at hturns
      have hrest : ¬ split.StraddlesLast ranges := fun hlast =>
        h (pairwise_cons.mpr ⟨fun _ _ hs => absurd hs hstraddles, hlast⟩)
      have hnext : split.turns ranges (before ++ [range']).length (before ++ [range'] ++ ranges) =
          some final := by simpa using hturns
      exact onTrack_pos_of_not_straddlesLast hfresh hrest hnext

/-- None of the images is on the split track. -/
theorem Split.onTrack_flatMap_image (hfresh : split.Fresh) (ranges : List (DirectedRange D K)) :
    split.onTrack (ranges.flatMap split.image) = 0 := by
  rw [onTrack, countP_eq_zero]
  intro item hitem
  obtain ⟨range, -, himage⟩ := mem_flatMap.mp hitem
  rw [decide_eq_true_eq]
  rw [image] at himage
  split at himage
  · next htrack => exact mem_singleton.mp himage ▸ htrack
  split at himage
  · exact mem_singleton.mp himage ▸ hfresh.left
  split at himage
  · exact mem_singleton.mp himage ▸ hfresh.right
  · rcases mem_cons.mp himage with rfl | himage
    · exact hfresh.left
    · exact mem_singleton.mp himage ▸ hfresh.right

/-! ### The operations on the array -/

section Json

variable [DirectionField D]

/-- The operations for a range act on the array as `turn` does on the list. -/
theorem applyAll_rangePatchOperations (range : DirectedRange D K) (index : ℕ)
    (items : List (DirectedRange D K)) :
    JsonPatch.applyAll (rangePatchOperations split [] range index) (jsonRanges items) =
      (split.turn range index items).map jsonRanges := by
  rw [rangePatchOperations, Split.turn]
  by_cases htrack : range.track = split.tracksectionId
  swap
  · rw [if_neg htrack, if_neg htrack]
    rfl
  rw [if_pos htrack, if_pos htrack]
  by_cases hleft : range.endAt ≤ split.distance
  · rw [if_pos hleft, if_pos hleft]
    simp only [JsonPatch.applyAll, nil_append, foldlM_cons, apply_replace_track]
    cases items[index]? <;> rfl
  rw [if_neg hleft, if_neg hleft]
  by_cases hright : split.distance ≤ range.beginAt
  · rw [if_pos hright, if_pos hright]
    simp only [JsonPatch.applyAll, nil_append, foldlM_cons, apply_replace_track]
    cases hitem : items[index]? with
    | none => rfl
    | some item =>
      have hindex := (List.getElem?_eq_some_iff.mp hitem).1
      simp [apply_replace_begin, apply_replace_end, hindex]
  · rw [if_neg hright, if_neg hright]
    simp only [JsonPatch.applyAll, foldlM_cons, foldlM_nil, apply,
      JsonPatch.modify, removeChild, jsonRanges, length_map]
    split
    · simp [addChild, eraseIdx_map, jsonRanges]
    · rfl

theorem applyAll_splitPatchOperations : ∀ (ranges : List (DirectedRange D K)) (index : ℕ)
    (items : List (DirectedRange D K)),
    JsonPatch.applyAll ((ranges.zipIdx index).flatMap fun (range, index) =>
      rangePatchOperations split [] range index) (jsonRanges items) =
      (split.turns ranges index items).map jsonRanges
  | [], _, _ => rfl
  | range :: ranges, index, items => by
    rw [zipIdx_cons, flatMap_cons, applyAll_append, applyAll_rangePatchOperations, Split.turns]
    cases split.turn range index items with
    | none => rfl
    | some items => exact applyAll_splitPatchOperations ranges (index + 1) items

theorem rangePatchOperations_under (path : List Token) (range : DirectedRange D K) (index : ℕ) :
    rangePatchOperations split path range index =
      (rangePatchOperations split [] range index).map (under path) := by
  simp only [rangePatchOperations]
  split
  · split
    · rfl
    · split
      · rfl
      · simp [under]
  · rfl

theorem splitPatchOperations_under (path : List Token) (ranges : List (DirectedRange D K)) :
    splitPatchOperations split path ranges = (splitPatchOperations split [] ranges).map (under path) := by
  rw [splitPatchOperations, splitPatchOperations, map_flatMap]
  exact flatMap_congr fun x _ => rangePatchOperations_under path x.1 x.2

/-! ### The patch -/

/-- The patch yields the images of the ranges when no range of the split track comes after one on both
    sides, and, with new tracks on the two sides, only then. -/
theorem Split.splitPatchOperations_spec {path : List Token} {ranges : List (DirectedRange D K)}
    {document : Value K} (h : JsonPatch.get path document = some (jsonRanges ranges)) :
    (split.StraddlesLast ranges →
      split.PatchedBy (splitPatchOperations split path ranges) path ranges document) ∧
    (split.Fresh → split.PatchedBy (splitPatchOperations split path ranges) path ranges document →
      split.StraddlesLast ranges) := by
  have hpatch : JsonPatch.applyAll (splitPatchOperations split path ranges) document =
      JsonPatch.modify (fun _ => (split.turns ranges 0 ranges).map jsonRanges) path document := by
    rw [splitPatchOperations_under, applyAll_under h, splitPatchOperations, applyAll_splitPatchOperations]
  constructor
  · intro hlast
    obtain ⟨items, hitems, hperm⟩ := Split.turns_straddlesLast hlast []
    refine ⟨items, hperm, ?_⟩
    rw [hpatch, show split.turns ranges 0 ranges = some items from hitems]
    rfl
  · rintro hfresh ⟨items, hperm, hitems⟩
    rw [hpatch, modify_const_inj h] at hitems
    obtain ⟨final, hfinal, hjson⟩ := Option.map_eq_some_iff.mp hitems
    by_contra hlast
    have hpos := Split.onTrack_pos_of_not_straddlesLast hfresh hlast
      (show split.turns ranges ([] : List (DirectedRange D K)).length ([] ++ ranges) = _ from hfinal)
    have hzero : split.onTrack items = 0 := by
      rw [Split.onTrack, hperm.countP_eq]
      exact Split.onTrack_flatMap_image hfresh ranges
    rw [Split.onTrack_congr hjson, hzero] at hpos
    exact absurd hpos (lt_irrefl 0)

end Json

/-- Both patches yield the images of the ranges if no range of the split track comes after one on both sides;
    with fresh identifiers, only then. -/
theorem splitPatches_straddlesLast (split : Split K) (path : List Token) (document : Value K) :
    (∀ ranges : List (ApplicableDirectionsTrackRange K),
      JsonPatch.get path document = some (jsonRanges ranges) → (split.StraddlesLast ranges → split.PatchedBy
        (getSplitPatchOperationsForApplicableRanges split path ranges) path ranges document) ∧
      (split.Fresh → split.PatchedBy
        (getSplitPatchOperationsForApplicableRanges split path ranges) path ranges document →
        split.StraddlesLast ranges)) ∧ ∀ ranges : List (DirectionalTrackRange K),
      JsonPatch.get path document = some (jsonRanges ranges) → (split.StraddlesLast ranges → split.PatchedBy
        (getSplitPatchOperationsForRanges split path ranges) path ranges document) ∧
      (split.Fresh → split.PatchedBy
        (getSplitPatchOperationsForRanges split path ranges) path ranges document →
        split.StraddlesLast ranges) :=
  ⟨fun _ h => Split.splitPatchOperations_spec h, fun _ h => Split.splitPatchOperations_spec h⟩

/-- A range on both sides, then a range of another track. -/
theorem splitPatches_one_straddles :
    let split : Split ℤ := ⟨"T", 5, "L", "R"⟩
    let ranges : List (ApplicableDirectionsTrackRange ℤ) := [⟨"T", 0, 10, .Both⟩, ⟨"U", 0, 3, .Both⟩]
    split.Fresh ∧ split.StraddlesLast ranges ∧ split.PatchedBy
      (getSplitPatchOperationsForApplicableRanges split [] ranges) [] ranges (jsonRanges ranges) := by
  intro split ranges
  have hfresh : split.Fresh := ⟨by decide, by decide⟩
  have hlast : split.StraddlesLast ranges := by simp [Split.StraddlesLast, ranges, split]
  obtain ⟨hpatched, hback⟩ := (splitPatches_straddlesLast split [] (jsonRanges ranges)).1 ranges rfl
  exact ⟨hfresh, hback hfresh (hpatched hlast), hpatched hlast⟩

/-- Two ranges on both sides: the second one is still on the split track, and the left part of the first
    one is lost. -/
theorem splitPatches_two_straddle :
    let split : Split ℤ := ⟨"T", 5, "L", "R"⟩
    let ranges : List (ApplicableDirectionsTrackRange ℤ) := [⟨"T", 0, 10, .Both⟩, ⟨"T", 2, 8, .Both⟩]
    let items : List (ApplicableDirectionsTrackRange ℤ) :=
      [⟨"T", 2, 8, .Both⟩, ⟨"R", 0, 5, .Both⟩, ⟨"L", 2, 5, .Both⟩, ⟨"R", 0, 3, .Both⟩]
    JsonPatch.applyAll (getSplitPatchOperationsForApplicableRanges split [] ranges) (jsonRanges ranges) =
      some (jsonRanges items) ∧ ¬ items.Perm (ranges.flatMap split.image) ∧
      ¬ split.PatchedBy (getSplitPatchOperationsForApplicableRanges split [] ranges) [] ranges
        (jsonRanges ranges) := by
  intro split ranges items
  have hitems : JsonPatch.applyAll (getSplitPatchOperationsForApplicableRanges split [] ranges)
      (jsonRanges ranges) = some (jsonRanges items) := rfl
  refine ⟨hitems, by decide, ?_⟩
  rintro ⟨items', hperm, hpatched⟩
  have hjson : jsonRanges items = jsonRanges items' := Option.some.inj (hitems.symm.trans hpatched)
  have hcount : split.onTrack items = split.onTrack (ranges.flatMap split.image) := by
    rw [Split.onTrack_congr hjson]
    exact hperm.countP_eq _
  exact absurd hcount (by decide)

end Osrd.Infra
