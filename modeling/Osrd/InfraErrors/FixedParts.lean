import Osrd.Lib.Partial
import Osrd.InfraErrors.PartPatches

/-! What the fixes of operational points and of level crossings leave of the parts.

    The parts on existing tracks should be left, with their positions on the track. The operations name the
    first part on a track, and the positions are written into the cache at indices that the removals before
    them have shifted. So the fix is right exactly when a missing track has one part, a part out of range is
    the first on its track and comes before the parts that are removed, and no track has a negative
    length. -/

namespace Osrd.InfraErrors

open Infra (ObjectRef)
open OrderedOperation List ObjectErrorGenerator Nat
open Option (any_some bind_some map_some ite_none_right_eq_some map_eq_bind bind_eq_some_iff isNone_some
    bind_eq_bind)

variable {K Obj Cache : Type} [Zero K] [LinearOrder K] (cache : InfraCache K)

/-! ### What is expected -/

/-- The track of the part does not exist. -/
def isMissing (part : PartCache K) : Bool := (cache.trackSection part.track).isNone

/-- The part is not on its track. -/
def isOutOfRange (part : PartCache K) : Bool :=
  match cache.trackSection part.track with
  | none => false
  | some track => !decide (0 ≤ part.position ∧ part.position ≤ track.length)

def clampPart (part : PartCache K) : PartCache K :=
  match cache.trackSection part.track with
  | none => part
  | some track => { part with position := max 0 (min part.position track.length) }

/-- The parts on existing tracks, in their order, with their positions on the track. -/
def fixedParts (parts : List (PartCache K)) : List (PartCache K) :=
  (parts.filter fun part => !isMissing cache part).map (clampPart cache)

/-- The parts on which the fix is right. -/
structure Fixable (parts : List (PartCache K)) : Prop where
  missing_once : parts.Pairwise fun a b => isMissing cache a → b.track ≠ a.track
  outOfRange_first : parts.Pairwise fun a b => isOutOfRange cache b → a.track ≠ b.track
  outOfRange_before_missing : parts.Pairwise fun a b => isOutOfRange cache b → ¬isMissing cache a
  lengths : ∀ part ∈ parts, ∀ track, cache.trackSection part.track = some track → 0 ≤ track.length

/-- The conditions of `Fixable`, one by one. -/
abbrev Lengths (parts : List (PartCache K)) : Prop :=
  ∀ part ∈ parts, ∀ track, cache.trackSection part.track = some track → 0 ≤ track.length

abbrev MissingOnce (parts : List (PartCache K)) : Prop :=
  parts.Pairwise fun a b => isMissing cache a → b.track ≠ a.track

abbrev OutOfRangeFirst (parts : List (PartCache K)) : Prop :=
  parts.Pairwise fun a b => isOutOfRange cache b → a.track ≠ b.track

variable {cache} {parts : List (PartCache K)}

omit [Zero K] [LinearOrder K] in
theorem isMissing_congr {a b : PartCache K} (h : a.track = b.track) :
    isMissing cache a = isMissing cache b := by
  rw [isMissing, isMissing, h]

theorem clampPart_track (part : PartCache K) : (clampPart cache part).track = part.track := by
  rw [clampPart]
  split <;> rfl

theorem clampPart_eta (part : PartCache K) :
    { part with position := (clampPart cache part).position } = clampPart cache part := by
  rw [clampPart]
  split <;> rfl

variable {part : PartCache K}

theorem not_isMissing_of_isOutOfRange (h : isOutOfRange cache part) : isMissing cache part = false := by
  rw [isOutOfRange] at h
  split at h
  · cases h
  · next htrack => rw [isMissing, htrack, isNone_some]

theorem clampPart_of_not_isOutOfRange (h : isOutOfRange cache part = false) :
    clampPart cache part = part := by
  rw [clampPart]
  split
  · rfl
  · next track htrack =>
    rw [isOutOfRange, htrack] at h
    simp only [Bool.not_eq_false', decide_eq_true_eq] at h
    rw [min_eq_left h.2, max_eq_right h.1]

theorem clampPart_not_isOutOfRange
    (hlength : ∀ track, cache.trackSection part.track = some track → 0 ≤ track.length) :
    isOutOfRange cache (clampPart cache part) = false := by
  rw [isOutOfRange, clampPart_track, clampPart]
  cases htrack : cache.trackSection part.track with
  | none => rfl
  | some track =>
    simp only [Bool.not_eq_false', decide_eq_true_eq]
    exact ⟨le_max_left _ _, max_le (hlength track htrack) (min_le_right _ _)⟩

theorem not_isMissing_of_mem_fixedParts (h : part ∈ fixedParts cache parts) :
    isMissing cache part = false := by
  obtain ⟨part', hpart', rfl⟩ := mem_map.mp h
  rw [isMissing_congr (clampPart_track part')]
  simpa using (mem_filter.mp hpart').2

theorem not_isOutOfRange_of_mem_fixedParts
    (hlengths : Lengths cache parts) (h : part ∈ fixedParts cache parts) :
      isOutOfRange cache part = false := by
  obtain ⟨part', hpart', rfl⟩ := mem_map.mp h
  exact clampPart_not_isOutOfRange (hlengths part' (mem_of_mem_filter hpart'))

theorem fixedParts_cons (part : PartCache K) (parts : List (PartCache K)) :
    fixedParts cache (part :: parts) = if isMissing cache part then fixedParts cache parts
      else clampPart cache part :: fixedParts cache parts := by
  cases h : isMissing cache part <;> simp [fixedParts, h]

/-! ### The errors -/

variable (cache)

/-- The errors of one part. -/
def errorsOf (object : ObjectRef) (entry : PartCache K × ℕ) : List (InfraError K) :=
  match cache.trackSection entry.1.track with
  | none => [.newInvalidReference object ("parts." ++ toString entry.2 ++ ".track")
      ⟨.TrackSection, entry.1.track⟩]
  | some track => checkPosition object ("parts." ++ toString entry.2 ++ ".position") track entry.1.track
      entry.1.position

theorem checkParts_eq (object : ObjectRef) (parts : List (PartCache K)) :
    checkParts object parts cache = some (parts.zipIdx.flatMap (errorsOf cache object)) := by
  have hpart : ∀ entry, checkPart object cache entry = some (errorsOf cache object entry) := by
    intro entry
    rw [checkPart, errorsOf]
    cases cache.trackSection entry.1.track <;> rfl
  have hmap : parts.zipIdx.mapM (checkPart object cache) =
      some (parts.zipIdx.map (errorsOf cache object)) := by
    refine Partial.mapM_eq_some_iff.mpr ?_
    rw [map_map]
    exact map_congr_left fun entry _ => hpart entry
  rw [checkParts, hmap, map_some, flatMap_def]

/-! ### What the errors of a part do -/

/-- The new parts after the errors of one part. -/
def stepPart (parts newParts : List (PartCache K)) (part : PartCache K) : Option (List (PartCache K)) :=
  match cache.trackSection part.track with
  | none => some (newParts.filter (·.track ≠ part.track))
  | some track =>
      if 0 ≤ part.position ∧ part.position ≤ track.length then some newParts
      else (outOfRangePartToOrderedOperation parts newParts ⟨.TrackSection, part.track⟩
        (0, track.length)).map (·.1)

/-- The operation of the errors of one part, on the first part of the same track. -/
def partOperations (parts : List (PartCache K)) (part : PartCache K) : List (OrderedOperation K) :=
  ((findPart parts part.track).bind fun first =>
    if isMissing cache part then some (.RemoveTrackRef first.2)
    else if isOutOfRange cache part then
      some (.UpdatePosition first.2 (clampPart cache first.1).position)
    else none).toList

variable {cache}

theorem clamp_eq_some {position upper newPosition : K} (h : clamp position 0 upper = some newPosition) :
    0 ≤ upper ∧ newPosition = max 0 (min position upper) := by
  obtain ⟨hle, h⟩ := ite_none_right_eq_some.mp h
  refine ⟨hle, ?_⟩
  rw [← Option.some.inj h]
  split
  · next hlt => rw [max_eq_left ((min_le_left _ _).trans hlt.le)]
  · next hge =>
    rw [not_lt] at hge
    split
    · next hlt => rw [min_eq_right hlt.le, max_eq_right hle]
    · next hle' => rw [min_eq_left (not_lt.mp hle'), max_eq_right hge]

omit [Zero K] [LinearOrder K] in
theorem findPart_eq_some_iff {trackId : String} {first : PartCache K} {i : ℕ} :
    findPart parts trackId = some (first, i) ↔ parts[i]? = some first ∧ first.track = trackId ∧
        ∀ j < i, ∀ part, parts[j]? = some part → part.track ≠ trackId := by
  rw [findPart, find?_eq_some_iff_getElem]
  simp only [getElem_zipIdx, length_zipIdx, zero_add, decide_eq_true_eq, Prod.mk.injEq,
    Bool.not_eq_true', decide_eq_false_iff_not]
  constructor
  · rintro ⟨htrack, k, hk, ⟨hfirst, rfl⟩, hbefore⟩
    refine ⟨List.getElem?_eq_some_iff.mpr ⟨hk, hfirst⟩, htrack, fun j hj part hpart => ?_⟩
    obtain ⟨hlt, rfl⟩ := List.getElem?_eq_some_iff.mp hpart
    exact hbefore j hj
  · rintro ⟨hfirst, htrack, hbefore⟩
    obtain ⟨hi, hfirst⟩ := List.getElem?_eq_some_iff.mp hfirst
    refine ⟨htrack, i, hi, ⟨hfirst, rfl⟩, fun j hj => ?_⟩
    exact hbefore j hj _ (List.getElem?_eq_getElem (hj.trans hi))

omit [Zero K] [LinearOrder K] in
theorem findPart_of_mem (h : part ∈ parts) : ∃ first i, findPart parts part.track = some (first, i) := by
  cases hfind : findPart parts part.track with
  | some entry => exact ⟨entry.1, entry.2, rfl⟩
  | none =>
    obtain ⟨i, hi⟩ := mem_iff_getElem?.mp h
    have hnone := find?_eq_none.mp hfind (part, i) (mk_mem_zipIdx_iff_getElem?.mpr hi)
    simp at hnone

variable {object : ObjectRef} {errors : List (InfraError K)} {newParts : List (PartCache K)}

/-- The errors of one part: a panic, or the new parts and the operation. -/
theorem fixErrors_errorsOf_append {entry : PartCache K × ℕ} :
    fixErrors parts (errorsOf cache object entry ++ errors) newParts =
      (stepPart cache parts newParts entry.1).bind fun newParts =>
        (fixErrors parts errors newParts).map fun result =>
          (result.1, partOperations cache parts entry.1 ++ result.2) := by
  rw [errorsOf, stepPart]
  cases htrack : cache.trackSection entry.1.track with
  | none =>
    have hmissing : isMissing cache entry.1 = true := by rw [isMissing, htrack, Option.isNone_none]
    cases hfind : findPart parts entry.1.track <;>
      simp [fixErrors, fixError, InfraError.newInvalidReference, invalidPartToOrderedOperation, hfind,
        partOperations, hmissing, map_eq_bind]
  | some track =>
    have hmissing : isMissing cache entry.1 = false := by rw [isMissing, htrack, isNone_some]
    by_cases hrange : 0 ≤ entry.1.position ∧ entry.1.position ≤ track.length
    · have hout : isOutOfRange cache entry.1 = false := by simp [isOutOfRange, htrack, hrange]
      cases hfind : findPart parts entry.1.track <;>
        simp [checkPosition, hrange, partOperations, hmissing, hout]
    · have hout : isOutOfRange cache entry.1 = true := by
        simp only [isOutOfRange, htrack, hrange, decide_false, Bool.not_false]
      simp only [checkPosition, if_neg hrange, InfraError.newOutOfRange, singleton_append, fixErrors,
        fixError, if_true, outOfRangePartToOrderedOperation, partOperations, hmissing, hout,
        Bool.false_eq_true, if_false]
      cases hfind : findPart parts entry.1.track with
      | none => simp [map_eq_bind]
      | some first =>
        obtain ⟨-, hsame, -⟩ := findPart_eq_some_iff.mp hfind
        cases hclamp : clamp first.1.position 0 track.length with
        | none => simp [hclamp]
        | some newPosition =>
          have hposition : (clampPart cache first.1).position = newPosition := by
            rw [clampPart, hsame, htrack, (clamp_eq_some hclamp).2]
          by_cases hlt : first.2 < newParts.length
          · simp [hclamp, hlt, hposition, map_eq_bind]
          · simp [hlt]

theorem fixErrors_flatMap_errorsOf : ∀ (entries : List (PartCache K × ℕ))
    (newParts : List (PartCache K)), fixErrors parts (entries.flatMap (errorsOf cache object)) newParts =
      ((entries.map (·.1)).foldlM (stepPart cache parts) newParts).map fun newParts =>
        (newParts, (entries.map (·.1)).flatMap (partOperations cache parts))
  | [], newParts => rfl
  | entry :: entries, newParts => by
    rw [flatMap_cons, fixErrors_errorsOf_append, map_cons, foldlM_cons, flatMap_cons]
    cases stepPart cache parts newParts entry.1 with
    | none => rfl
    | some newParts =>
      simp only [bind_some]
      rw [fixErrors_flatMap_errorsOf entries newParts, Option.map_map]
      rfl

theorem fixErrors_checkParts (herrors : checkParts object parts cache = some errors) :
    fixErrors parts errors parts = (parts.foldlM (stepPart cache parts) parts).map fun newParts =>
        (newParts, parts.flatMap (partOperations cache parts)) := by
  rw [checkParts_eq] at herrors
  rw [← Option.some.inj herrors, fixErrors_flatMap_errorsOf, zipIdx_map_fst]

/-! ### The patch -/

variable (cache parts)

/-- The part at the index is the first on its track. -/
def isFirst (i : ℕ) : Bool :=
  parts[i]?.any fun part => (findPart parts part.track).map (·.2) = some i

/-- The parts that the patch removes. -/
def isRemoved (i : ℕ) : Bool := isFirst parts i && parts[i]?.any (isMissing cache)

/-- The parts whose position the patch writes. -/
def isUpdated (i : ℕ) : Bool :=
  isFirst parts i && parts[i]?.any fun part =>
    parts.any fun other => other.track = part.track && isOutOfRange cache other

variable {cache parts}

omit [Zero K] [LinearOrder K] in
theorem isFirst_iff {i : ℕ} (hpart : parts[i]? = some part) :
    isFirst parts i ↔ findPart parts part.track = some (part, i) := by
  rw [isFirst, hpart, any_some, decide_eq_true_eq, Option.map_eq_some_iff]
  constructor
  · rintro ⟨⟨first, j⟩, hfind, rfl⟩
    have hfirst := (findPart_eq_some_iff.mp hfind).1
    rw [hpart] at hfirst
    rw [hfind, Option.some.inj hfirst]
  · intro hfind
    exact ⟨_, hfind, rfl⟩

theorem mem_operations_iff (op : OrderedOperation K) : op ∈ parts.flatMap (partOperations cache parts) ↔
      op ∈ updates (isUpdated cache parts) (fun part => (clampPart cache part).position) parts ++
        removals (isRemoved cache parts) parts := by
  rw [mem_flatMap, mem_append, updates, removals, mem_descending, mem_descending]
  simp only [partOperations, Option.mem_toList, bind_eq_some_iff, zero_add, ite_none_right_eq_some]
  constructor
  · rintro ⟨part, hpart, ⟨first, i⟩, hfind, hop⟩
    obtain ⟨hfirst, hsame, -⟩ := findPart_eq_some_iff.mp hfind
    have hisFirst : isFirst parts i = true := (isFirst_iff hfirst).mpr (hsame ▸ hfind)
    cases hmissing : isMissing cache part with
    | true =>
      rw [hmissing, if_pos rfl] at hop
      refine .inr ⟨i, first, hfirst, ?_, hop⟩
      rw [isRemoved, hisFirst, hfirst, any_some, isMissing_congr hsame, hmissing]
      rfl
    | false =>
      rw [hmissing, if_neg Bool.false_ne_true, ite_none_right_eq_some] at hop
      refine .inl ⟨i, first, hfirst, ?_, hop.2⟩
      rw [isUpdated, hisFirst, hfirst, any_some, Bool.true_and, any_eq_true]
      exact ⟨part, hpart, by simp [hsame, hop.1]⟩
  · rintro (⟨i, part, hpart, hupdated, hop⟩ | ⟨i, part, hpart, hremoved, hop⟩)
    · rw [isUpdated, hpart, any_some, Bool.and_eq_true, any_eq_true] at hupdated
      obtain ⟨hisFirst, other, hother, hout⟩ := hupdated
      rw [Bool.and_eq_true, decide_eq_true_eq] at hout
      refine ⟨other, hother, (part, i), hout.1 ▸ (isFirst_iff hpart).mp hisFirst, ?_⟩
      rw [not_isMissing_of_isOutOfRange hout.2, if_neg Bool.false_ne_true, if_pos hout.2, hop]
    · rw [isRemoved, hpart, any_some, Bool.and_eq_true] at hremoved
      refine ⟨part, mem_of_getElem? hpart, (part, i), (isFirst_iff hpart).mp hremoved.1, ?_⟩
      rw [if_pos hremoved.2, hop]

/-- The parts after the patch. -/
def patchedParts (cache : InfraCache K) (parts : List (PartCache K)) : List (PartCache K) :=
  keptParts (isRemoved cache parts) 0
    (updatedParts (isUpdated cache parts) (fun part => (clampPart cache part).position) 0 parts)

theorem foldlM_sortOperations :
    (sortOperations (parts.flatMap (partOperations cache parts))).foldlM onParts parts =
      some (patchedParts cache parts) := by
  rw [sortOperations_eq _ _ _ mem_operations_iff]
  exact foldlM_updates_removals _ _ _ parts

theorem delete_notMem_sortOperations :
    .Delete ∉ sortOperations (parts.flatMap (partOperations cache parts)) := by
  rw [sortOperations_eq _ _ _ mem_operations_iff, mem_append, not_or, updates, removals,
    mem_descending, mem_descending]
  constructor
  · rintro ⟨i, part, -, hop⟩
    exact nomatch (ite_none_right_eq_some.mp hop).2
  · rintro ⟨i, part, -, hop⟩
    exact nomatch (ite_none_right_eq_some.mp hop).2

/-- A part that no operation is about is left as it is. -/
theorem mem_patchedParts {i : ℕ} (hpart : parts[i]? = some part) (hfirst : isFirst parts i = false) :
    part ∈ patchedParts cache parts := by
  refine mem_keptParts_updatedParts _ _ _ hpart ?_ ?_
  · rw [zero_add, isRemoved, hfirst, Bool.false_and]
  · rw [zero_add, isUpdated, hfirst, Bool.false_and]

omit [Zero K] [LinearOrder K] in
/-- Two parts on one track: the second is not the first. -/
theorem not_isFirst_of_lt {i j : ℕ} {a b : PartCache K} (hlt : i < j) (ha : parts[i]? = some a)
    (hb : parts[j]? = some b) (hsame : a.track = b.track) : isFirst parts j = false := by
  rw [← Bool.not_eq_true, isFirst_iff hb, findPart_eq_some_iff]
  rintro ⟨-, -, hbefore⟩
  exact hbefore i hlt a ha hsame

/-- A patch that is right removes every part on a missing track, and writes every position out of range. -/
theorem pairwise_of_patchedParts
    (hlengths : Lengths cache parts) (h : patchedParts cache parts = fixedParts cache parts) :
    MissingOnce cache parts ∧ OutOfRangeFirst cache parts := by
  have hleft : ∀ {i j : ℕ} (hi : i < parts.length) (hj : j < parts.length), i < j →
      parts[i].track = parts[j].track → parts[j] ∈ fixedParts cache parts := by
    intro i j hi hj hlt hsame
    have hb := List.getElem?_eq_getElem hj
    rw [← h]
    exact mem_patchedParts hb (not_isFirst_of_lt hlt (List.getElem?_eq_getElem hi) hb hsame)
  refine ⟨pairwise_iff_getElem.mpr fun i j hi hj hlt hmissing hsame => ?_,
    pairwise_iff_getElem.mpr fun i j hi hj hlt hout hsame => ?_⟩
  · have hnot := not_isMissing_of_mem_fixedParts (hleft hi hj hlt hsame.symm)
    rw [isMissing_congr hsame, hmissing] at hnot
    cases hnot
  · have hnot := not_isOutOfRange_of_mem_fixedParts hlengths (hleft hi hj hlt hsame)
    rw [hout] at hnot
    cases hnot

/-- Under these conditions it is right. -/
theorem patchedParts_eq (hmissing : MissingOnce cache parts) (hout : OutOfRangeFirst cache parts) :
    patchedParts cache parts = fixedParts cache parts := by
  have hfirst : ∀ {i : ℕ} {part : PartCache K}, parts[i]? = some part →
      isMissing cache part ∨ isOutOfRange cache part → isFirst parts i := by
    intro i part hpart hkind
    refine (isFirst_iff hpart).mpr (findPart_eq_some_iff.mpr ⟨hpart, rfl, fun j hj other hother => ?_⟩)
    obtain ⟨hi, rfl⟩ := List.getElem?_eq_some_iff.mp hpart
    obtain ⟨hj', rfl⟩ := List.getElem?_eq_some_iff.mp hother
    intro hsame
    rcases hkind with hkind | hkind
    · exact pairwise_iff_getElem.mp hmissing j i hj' hi hj (isMissing_congr hsame ▸ hkind) hsame.symm
    · exact pairwise_iff_getElem.mp hout j i hj' hi hj hkind hsame
  suffices hall : ∀ (rest : List (PartCache K)) (i : ℕ),
      (∀ j part, rest[j]? = some part → parts[i + j]? = some part) →
      keptParts (isRemoved cache parts) i (updatedParts (isUpdated cache parts)
        (fun part => (clampPart cache part).position) i rest) = fixedParts cache rest from
    hall parts 0 fun j part hpart => by rwa [zero_add]
  intro rest
  induction rest with
  | nil => exact fun i _ => rfl
  | cons part rest ih =>
    intro i hrest
    have hpart : parts[i]? = some part := hrest 0 part rfl
    have htail := ih (i + 1) fun j part' hpart' => by
      rw [add_right_comm]
      exact hrest (j + 1) part' hpart'
    rw [updatedParts, keptParts, htail, fixedParts_cons, isRemoved, isUpdated, hpart, any_some, any_some]
    cases hkind : isMissing cache part with
    | true =>
      rw [hfirst hpart (.inl hkind)]
      rfl
    | false =>
      rw [Bool.and_false, if_neg Bool.false_ne_true, if_neg Bool.false_ne_true, clampPart_eta]
      cases hrange : isOutOfRange cache part with
      | false => rw [clampPart_of_not_isOutOfRange hrange, ite_self]
      | true =>
        have hany : (parts.any fun other => other.track = part.track && isOutOfRange cache other) = true :=
          any_eq_true.mpr ⟨part, mem_of_getElem? hpart, by simp [hrange]⟩
        rw [hfirst hpart (.inr hrange), hany]
        rfl

/-! ### The cache -/

/-- The track of a part out of range has a length that is not negative, or the fix panics. -/
theorem lengths_of_foldlM
    (h : parts.foldlM (stepPart cache parts) parts = some newParts) : Lengths cache parts := by
  intro part hpart track htrack
  obtain ⟨before, after, hstep⟩ := Partial.exists_of_foldlM h hpart
  rw [stepPart, htrack] at hstep
  by_cases hrange : 0 ≤ part.position ∧ part.position ≤ track.length
  · exact hrange.1.trans hrange.2
  · obtain ⟨first, i, hfind⟩ := findPart_of_mem hpart
    simp only [if_neg hrange, outOfRangePartToOrderedOperation, hfind] at hstep
    cases hclamp : clamp first.position 0 track.length with
    | none => simp [hclamp] at hstep
    | some newPosition => exact (clamp_eq_some hclamp).1

section Run

variable {done rest : List (PartCache K)} {part : PartCache K} {newParts : List (PartCache K)}

omit [Zero K] [LinearOrder K] in
/-- The parts on a missing track are removed where the others are not on it. -/
theorem filter_of_isMissing {pre : List (PartCache K)} (hmissing : isMissing cache part)
    (hpre : ∀ other ∈ pre, isMissing cache other = false)
    (hrest : ∀ other ∈ rest, other.track ≠ part.track) :
    (pre ++ part :: rest).filter (·.track ≠ part.track) = pre ++ rest := by
  have hother : ∀ other ∈ pre, other.track ≠ part.track := fun other hmem hsame => by
    rw [← isMissing_congr hsame, hpre other hmem] at hmissing
    cases hmissing
  rw [filter_append, filter_cons_of_neg (by simp)]
  rw [filter_eq_self.mpr fun other hmem => decide_eq_true (hother other hmem),
    filter_eq_self.mpr fun other hmem => decide_eq_true (hrest other hmem)]

theorem exists_getElem?_filter {α : Type} {p : α → Bool} {a : α} (ha : p a) :
    ∀ {as : List α} {i : ℕ}, as[i]? = some a → ∃ j ≤ i, (as.filter p)[j]? = some a
  | b :: as, 0, h => by
    cases h
    exact ⟨0, le_rfl, by rw [filter_cons_of_pos ha, getElem?_cons_zero]⟩
  | b :: as, i + 1, h => by
    obtain ⟨j, hj, hget⟩ := exists_getElem?_filter ha (i := i) h
    cases hb : p b with
    | true => exact ⟨j + 1, succ_le_succ hj, by rwa [filter_cons_of_pos hb, getElem?_cons_succ]⟩
    | false => exact ⟨j, le_succ_of_le hj, by rwa [filter_cons_of_neg (by simp [hb])]⟩

variable (hfirst : OutOfRangeFirst cache parts) (hlengths : Lengths cache parts)

include hfirst hlengths

/-- The position of the first part on its track is written where the part was at the start. -/
theorem stepPart_eq (hparts : parts = done ++ part :: rest) : stepPart cache parts newParts part =
    if isMissing cache part then some (newParts.filter (·.track ≠ part.track))
    else if isOutOfRange cache part then
      if done.length < newParts.length then some (newParts.modify done.length fun other =>
        { other with position := (clampPart cache part).position }) else none else some newParts := by
  rw [stepPart]
  cases htrack : cache.trackSection part.track with
  | none => simp [isMissing, htrack]
  | some track =>
    have hkind : isMissing cache part = false := by simp [isMissing, htrack]
    rw [hkind, if_neg Bool.false_ne_true]
    by_cases hrange : 0 ≤ part.position ∧ part.position ≤ track.length
    · simp [isOutOfRange, htrack, hrange]
    · have hout : isOutOfRange cache part := by
        simp only [isOutOfRange, htrack, hrange, decide_false, Bool.not_false]
      have hfind : findPart parts part.track = some (part, done.length) := by
        refine findPart_eq_some_iff.mpr ⟨by simp [hparts], rfl, fun j hj other hother => ?_⟩
        rw [hparts, getElem?_append_left hj] at hother
        have hdone := (pairwise_append.mp (hparts ▸ hfirst)).2.2
        exact hdone other (mem_of_getElem? hother) part mem_cons_self hout
      have hmem : part ∈ parts := hparts ▸ mem_append_right _ mem_cons_self
      obtain ⟨newPosition, hclamp⟩ : ∃ newPosition, clamp part.position 0 track.length = some newPosition :=
        ⟨_, if_pos (hlengths part hmem track htrack)⟩
      have hposition : (clampPart cache part).position = newPosition := by
        rw [clampPart, htrack, (clamp_eq_some hclamp).2]
      simp only [if_neg hrange, if_pos hout, outOfRangePartToOrderedOperation, hfind, hclamp, hposition,
        bind_eq_bind, bind_some]
      split <;> rfl

/-- A part that stays out of range before the index of the next part is never written. -/
theorem exists_isOutOfRange_of_foldlM : ∀ (rest done newParts : List (PartCache K))
    {result : List (PartCache K)} {i : ℕ} {bad : PartCache K},
    parts = done ++ rest → newParts[i]? = some bad → i < done.length → isOutOfRange cache bad →
    rest.foldlM (stepPart cache parts) newParts = some result → ∃ part ∈ result, isOutOfRange cache part
  | [], done, newParts, result, i, bad, _, hbad, _, hout, hrun => by
    cases hrun
    exact ⟨bad, mem_of_getElem? hbad, hout⟩
  | part :: rest, done, newParts, result, i, bad, hparts, hbad, hlt, hout, hrun => by
    obtain ⟨next, hstep, hrun⟩ := bind_eq_some_iff.mp hrun
    suffices hnext : ∃ j < (done ++ [part]).length, next[j]? = some bad by
      obtain ⟨j, hj, hbad⟩ := hnext
      exact exists_isOutOfRange_of_foldlM rest (done ++ [part]) next (by simp [hparts]) hbad hj hout hrun
    rw [length_append, length_singleton]
    rw [stepPart_eq hfirst hlengths hparts] at hstep
    split_ifs at hstep with hkind <;> cases hstep
    · have hother : bad.track ≠ part.track := fun hsame => by
        rw [← isMissing_congr hsame, not_isMissing_of_isOutOfRange hout] at hkind
        cases hkind
      obtain ⟨j, hj, hget⟩ := @exists_getElem?_filter _ (fun other => decide (other.track ≠ part.track))
        bad (decide_eq_true hother) _ _ hbad
      exact ⟨j, by omega, hget⟩
    · refine ⟨i, by omega, ?_⟩
      rw [getElem?_modify, hbad]
      simp [hlt.ne']
    · exact ⟨i, by omega, hbad⟩

/-- A cache without a part out of range comes from parts that are removed last: once something is removed, a
    position out of range is written somewhere else. -/
theorem pairwise_of_foldlM (honce : MissingOnce cache parts)
    {result : List (PartCache K)} (hresult : ∀ part ∈ result, isOutOfRange cache part = false) :
    ∀ rest done pre : List (PartCache K), parts = done ++ rest → pre.length ≤ done.length →
    rest.foldlM (stepPart cache parts) (pre ++ rest) = some result →
    (rest.Pairwise fun a b => isOutOfRange cache b → ¬isMissing cache a) ∧
      (pre.length < done.length → ∀ other ∈ rest, isOutOfRange cache other = false)
  | [], _, _, _, _, _ => ⟨.nil, fun _ _ hother => nomatch hother⟩
  | part :: rest, done, pre, hparts, hle, hrun => by
    have hdone : parts = (done ++ [part]) ++ rest := by simp [hparts]
    have hlength : (done ++ [part]).length = done.length + 1 := by simp
    -- the parts behind, where this part or another stays in its place
    have hnext : ∀ part', rest.foldlM (stepPart cache parts) (pre ++ part' :: rest) = some result →
        (rest.Pairwise fun a b => isOutOfRange cache b → ¬isMissing cache a) ∧
          (pre.length < done.length → ∀ other ∈ rest, isOutOfRange cache other = false) := by
      intro part' hrun
      rw [← singleton_append, ← append_assoc] at hrun
      have hrest := pairwise_of_foldlM honce hresult rest (done ++ [part]) (pre ++ [part']) hdone
        (by simpa using hle) hrun
      simpa using hrest
    obtain ⟨next, hstep, hrun⟩ := bind_eq_some_iff.mp hrun
    rw [stepPart_eq hfirst hlengths hparts] at hstep
    split_ifs at hstep with hkind hout <;> cases hstep
    · have hrest := (pairwise_cons.mp (pairwise_append.mp (hparts ▸ honce)).2.1).1
      rw [filter_append, filter_cons_of_neg (by simp), filter_eq_self.mpr
        fun other hother => decide_eq_true (hrest other hother hkind)] at hrun
      have hshort := length_filter_le (·.track ≠ part.track) pre
      obtain ⟨hpairwise, hrange⟩ := pairwise_of_foldlM honce hresult rest (done ++ [part]) _ hdone
        (by omega) hrun
      have hall := hrange (by omega)
      refine ⟨pairwise_cons.mpr ⟨fun other hother hout => ?_, hpairwise⟩, fun _ =>
        forall_mem_cons.mpr ⟨Bool.eq_false_iff.mpr fun hout => ?_, hall⟩⟩
      · rw [hall other hother] at hout
        cases hout
      · rw [not_isMissing_of_isOutOfRange hout] at hkind
        cases hkind
    · rcases hle.lt_or_eq with hlt | heq
      · -- the part itself stays as it is, before the index that is written
        have hkept : ((pre ++ part :: rest).modify done.length fun other =>
            { other with position := (clampPart cache part).position })[pre.length]? = some part := by
          simp [hlt.ne']
        obtain ⟨bad, hbad, hbadOut⟩ := exists_isOutOfRange_of_foldlM hfirst hlengths rest
          (done ++ [part]) _ hdone hkept (by omega) hout hrun
        rw [hresult bad hbad] at hbadOut
        cases hbadOut
      · rw [← heq, modify_append_cons] at hrun
        exact ⟨pairwise_cons.mpr ⟨fun _ _ _ => hkind, (hnext _ hrun).1⟩, fun hlt => absurd heq hlt.ne⟩
    · obtain ⟨hpairwise, hrange⟩ := hnext part hrun
      exact ⟨pairwise_cons.mpr ⟨fun _ _ _ => hkind, hpairwise⟩,
        fun hlt => forall_mem_cons.mpr ⟨Bool.eq_false_iff.mpr hout, hrange hlt⟩⟩

omit hfirst hlengths

/-- As long as nothing is removed, the parts of the cache are at their first indices; behind a part that is
    removed none is out of range. -/
theorem foldlM_stepPart_eq (h : Fixable cache parts) : ∀ (rest done pre : List (PartCache K)),
    parts = done ++ rest → pre.length = done.length ∨ (∀ other ∈ rest, isOutOfRange cache other = false) →
    (∀ other ∈ pre, isMissing cache other = false) →
    rest.foldlM (stepPart cache parts) (pre ++ rest) = some (pre ++ fixedParts cache rest)
  | [], done, pre, _, _, _ => rfl
  | part :: rest, done, pre, hparts, hwhere, hpre => by
    have hdone : parts = (done ++ [part]) ++ rest := by simp [hparts]
    have hnext : isMissing cache part = false →
        rest.foldlM (stepPart cache parts) (pre ++ clampPart cache part :: rest) =
          some (pre ++ clampPart cache part :: fixedParts cache rest) := by
      intro hkind
      have hrest := foldlM_stepPart_eq h rest (done ++ [part]) (pre ++ [clampPart cache part]) hdone
        (hwhere.imp (fun hlength => by simp [hlength]) fun hall => (forall_mem_cons.mp hall).2)
        (forall_mem_append.mpr ⟨hpre, forall_mem_singleton.mpr
          ((isMissing_congr (clampPart_track part)).trans hkind)⟩)
      rwa [append_assoc, append_assoc] at hrest
    rw [foldlM_cons, fixedParts_cons, stepPart_eq h.outOfRange_first h.lengths hparts]
    cases hkind : isMissing cache part with
    | true =>
      have honce := (pairwise_append.mp (hparts ▸ h.missing_once)).2.1
      have hbefore := (pairwise_append.mp (hparts ▸ h.outOfRange_before_missing)).2.1
      rw [if_pos rfl, filter_of_isMissing hkind hpre fun other hother =>
        (pairwise_cons.mp honce).1 other hother hkind]
      refine foldlM_stepPart_eq h rest (done ++ [part]) pre hdone (.inr fun other hother => ?_) hpre
      rw [← Bool.not_eq_true]
      exact fun hout => (pairwise_cons.mp hbefore).1 other hother hout hkind
    | false =>
      cases hout : isOutOfRange cache part with
      | false =>
        have hrest := hnext hkind
        rw [clampPart_of_not_isOutOfRange hout] at hrest ⊢
        exact hrest
      | true =>
        have hlength := hwhere.resolve_right fun hall => by
          rw [hall part mem_cons_self] at hout
          cases hout
        rw [if_neg Bool.false_ne_true, if_pos rfl, if_pos (by simp [hlength]), ← hlength, modify_append_cons,
          clampPart_eta]
        exact hnext hkind

end Run

/-! ### The fix -/

/-- The fix is returned without a panic, and an update leaves the expected parts, in the document of the
    object as in the cache. -/
def FixesParts (cache : InfraCache K) (parts : List (PartCache K)) (getParts : Cache → List (PartCache K))
    (result : Option (Option (Fix Obj Cache K))) : Prop :=
  ∃ fix, result = some fix ∧ ∀ object patch cacheOperation,
    fix = some (.Update object patch, cacheOperation) →
    (∃ new, cacheOperation = .Update new ∧ getParts new = fixedParts cache parts) ∧
    ∀ document, PartsOf document parts →
      ∃ after, JsonPatch.applyAll patch document = some after ∧ PartsOf after (fixedParts cache parts)

variable {patchInfraObject : Obj → List (JsonPatch.Operation K) → Option Obj}

theorem fixParts_eq {rebuild : List (PartCache K) → Cache}
    (herrors : checkParts object parts cache = some errors) :
    fixParts patchInfraObject object parts rebuild errors =
      (parts.foldlM (stepPart cache parts) parts).map fun newParts =>
        if parts.flatMap (partOperations cache parts) = [] then none
        else some (.Update object (((sortOperations (parts.flatMap (partOperations cache parts))).flatMap
          onArray).map (JsonPatch.Operation.under [.key "parts"])), .Update (rebuild newParts)) := by
  rw [fixParts, fixErrors_checkParts herrors]
  cases parts.foldlM (stepPart cache parts) parts with
  | none => rfl
  | some newParts =>
    simp only [map_some, bind_eq_bind, bind_some]
    by_cases hnone : parts.flatMap (partOperations cache parts) = []
    · rw [if_pos hnone, hnone]
      simp [sortOperations, reduceOperations]
    · have hne : sortOperations (parts.flatMap (partOperations cache parts)) ≠ [] := by
        obtain ⟨op, hop⟩ := exists_mem_of_ne_nil _ hnone
        exact ne_nil_of_mem (mem_sortOperations.mpr hop)
      rw [if_neg hnone, reduceOperations_update delete_notMem_sortOperations hne]

/-- Parts that give no operation are all on their tracks. -/
theorem forall_inRange_of_operations_eq_nil (h : parts.flatMap (partOperations cache parts) = []) :
    ∀ part ∈ parts, isMissing cache part = false ∧ isOutOfRange cache part = false := by
  intro part hpart
  have hnone := flatMap_eq_nil_iff.mp h part hpart
  obtain ⟨first, i, hfind⟩ := findPart_of_mem hpart
  rw [partOperations, hfind, bind_some] at hnone
  cases hmissing : isMissing cache part with
  | true => simp [hmissing] at hnone
  | false =>
    cases hout : isOutOfRange cache part with
    | true => simp [hmissing, hout] at hnone
    | false => exact ⟨rfl, rfl⟩

section Fix

variable {object : ObjectRef} {rebuild : List (PartCache K) → Cache}
  {getParts : Cache → List (PartCache K)} {errors : List (InfraError K)}

theorem Fixable.fixesParts (h : Fixable cache parts) (hget : ∀ parts, getParts (rebuild parts) = parts)
    (herrors : checkParts object parts cache = some errors) :
    FixesParts cache parts getParts (fixParts patchInfraObject object parts rebuild errors) := by
  have hcache := foldlM_stepPart_eq h parts [] [] rfl (.inl rfl) (forall_mem_nil _)
  rw [nil_append, nil_append] at hcache
  rw [fixParts_eq herrors, hcache, map_some]
  refine ⟨_, rfl, fun object' patch cacheOperation hfix => ?_⟩
  obtain ⟨-, hfix⟩ := Option.ite_none_left_eq_some.mp hfix
  obtain ⟨hop, rfl⟩ := Prod.mk.inj (Option.some.inj hfix)
  obtain ⟨-, rfl⟩ := Operation.Update.inj hop
  refine ⟨⟨_, rfl, hget _⟩, fun document hdocument => ?_⟩
  rw [← patchedParts_eq h.missing_once h.outOfRange_first]
  exact applyAll_document hdocument foldlM_sortOperations

theorem fixable_of_fixesParts (hget : ∀ parts, getParts (rebuild parts) = parts)
    (herrors : checkParts object parts cache = some errors)
    (h : FixesParts cache parts getParts (fixParts patchInfraObject object parts rebuild errors)) :
    Fixable cache parts := by
  obtain ⟨fix, hresult, hupdate⟩ := h
  rw [fixParts_eq herrors] at hresult
  obtain ⟨newParts, hrun, hfix⟩ := Option.map_eq_some_iff.mp hresult
  have hlengths := lengths_of_foldlM hrun
  by_cases hnone : parts.flatMap (partOperations cache parts) = []
  · have hall := forall_inRange_of_operations_eq_nil hnone
    refine ⟨?_, ?_, ?_, hlengths⟩
    · refine pairwise_of_forall_mem_list fun a ha b _ hmissing => ?_
      rw [(hall a ha).1] at hmissing
      cases hmissing
    all_goals
      refine pairwise_of_forall_mem_list fun a _ b hb hout => ?_
      rw [(hall b hb).2] at hout
      cases hout
  · rw [if_neg hnone] at hfix
    obtain ⟨⟨new, hnew, hparts⟩, hdocuments⟩ := hupdate _ _ _ hfix.symm
    cases hnew
    rw [hget] at hparts
    obtain ⟨document, hdocument⟩ := exists_partsOf parts
    obtain ⟨after, happly, hafter⟩ := hdocuments document hdocument
    obtain ⟨after', happly', hafter'⟩ :=
      applyAll_document hdocument (@foldlM_sortOperations _ _ _ cache parts)
    cases happly.symm.trans happly'
    obtain ⟨honce, hfirst⟩ := pairwise_of_patchedParts hlengths (hafter'.unique hafter)
    refine ⟨honce, hfirst, (pairwise_of_foldlM hfirst hlengths honce (fun part hpart => ?_) parts [] []
      rfl le_rfl hrun).1, hlengths⟩
    exact not_isOutOfRange_of_mem_fixedParts hlengths (hparts ▸ hpart)

/-- The errors of an object with parts: it is empty, or the errors of the parts. -/
theorem checkObject_parts {El : Type} {el : El} {graph : Graph}
    {checkEmpty checkElParts : El → InfraCache K → Graph → Option (List (InfraError K))}
    (hempty : checkEmpty el cache graph = checkEmptyField object "parts" parts.isEmpty)
    (hparts : checkElParts el cache graph = checkParts object parts cache) :
    checkObject cache graph el [.NoContext 1 checkEmpty, .NoContext 2 checkElParts] false 0
        ({} : NoContext) = if parts = [] then some ([.newEmptyObject object "parts"], {})
      else (checkParts object parts cache).map (·, {}) := by
  cases parts with
  | nil =>
    simp [checkObject, run, getPriority, hempty, checkEmptyField]
  | cons part parts =>
    simp [checkObject, run, getPriority, hempty, hparts, checkEmptyField, checkParts_eq]

theorem fixesParts_found_iff {found : Option (List (InfraError K) × NoContext)}
    (hget : ∀ parts, getParts (rebuild parts) = parts)
    (hfound : found = if parts = [] then some ([.newEmptyObject object "parts"], {})
      else (checkParts object parts cache).map (·, {})) : FixesParts cache parts getParts
        (found.bind fun found => fixParts patchInfraObject object parts rebuild found.1) ↔
      Fixable cache parts := by
  by_cases hnil : parts = []
  · subst hnil
    refine iff_of_true ?_ ⟨.nil, .nil, .nil, forall_mem_nil _⟩
    have hdelete : fixParts patchInfraObject object [] rebuild [.newEmptyObject object "parts"] =
        some (some (.Delete object, .Delete object)) := by
      have hsort : sortOperations [(.Delete : OrderedOperation K)] = [.Delete] := by
        exact mergeSort_singleton _
      simp [fixParts, fixErrors, fixError, InfraError.newEmptyObject, hsort, toOperation, reduceOperations]
    rw [hfound, if_pos rfl]
    refine ⟨_, hdelete, fun object' patch cacheOperation hfix => ?_⟩
    cases hfix
  · rw [hfound, if_neg hnil, checkParts_eq]
    have herrors := checkParts_eq cache object parts
    exact ⟨fixable_of_fixesParts hget herrors, fun h => h.fixesParts hget herrors⟩

end Fix

/-- On the errors of an operational point or of a level crossing, the fix is right exactly on those parts. -/
theorem fix_errors_iff (patchInfraObject : Obj → List (JsonPatch.Operation K) → Option Obj)
    (cache : InfraCache K) (graph : Graph) (operationalPoint : OperationalPointCache K)
    (levelCrossing : LevelCrossingCache K) : (FixesParts cache operationalPoint.parts (·.parts)
      ((checkObject cache graph operationalPoint OperationalPoints.objectGenerators false 0 {}).bind
        fun found => fixOperationalPoint patchInfraObject operationalPoint found.1) ↔
      Fixable cache operationalPoint.parts) ∧ (FixesParts cache levelCrossing.parts (·.parts)
      ((checkObject cache graph levelCrossing LevelCrossings.objectGenerators false 0 {}).bind
        fun found => fixLevelCrossing patchInfraObject levelCrossing found.1) ↔
      Fixable cache levelCrossing.parts) :=
  ⟨fixesParts_found_iff (fun _ => rfl) (checkObject_parts rfl rfl),
    fixesParts_found_iff (fun _ => rfl) (checkObject_parts rfl rfl)⟩

/-- One track, of length 100. -/
def oneTrack : InfraCache ℚ where
  trackSections := [⟨"A", 100⟩]
  bufferStops := []
  detectors := []
  switches := []
  switchTypes := []
  routes := []
  speedSections := []
  electrifications := []
  trackSectionsRefs _ := []

/-- A part on a missing track, then one past the end of its track: once the first part is removed, the index
    of the second is out of bounds. -/
theorem fix_missing_then_outOfRange :
    let op : OperationalPointCache ℚ := ⟨"OP", [⟨"X", 0⟩, ⟨"A", 150⟩]⟩
    ((checkObject oneTrack Graph.default op OperationalPoints.objectGenerators false 0 {}).map (·.1.length) =
      some 2) ∧
    ((checkObject oneTrack Graph.default op OperationalPoints.objectGenerators false 0 {}).bind
      fun found => fixOperationalPoint (fun (_ : Unit) _ => none) op found.1).isNone := by
  decide +kernel

end Osrd.InfraErrors
