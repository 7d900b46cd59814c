import Mathlib
import Osrd.Path.LinearRange

/-! Model of `mapSubObjects` (`kt-osrd-path/.../GenericLinearRange.kt`): the ranges of the objects of a
    path become the ranges of the smaller objects these are made of, such as the blocks of a route.

    Each range is cut at the ends of its sub-objects, and a sub-object that only touches the range
    stays as a range without length. The pieces of all ranges are then put together again when two in
    a row have the same sub-object. The proof follows the ranges: what has been put together describes
    the walk through the ranges read so far, and its last piece is the last sub-object these meet. -/

namespace Osrd.Path

open GenericLinearRange List

variable {V S : Type}

/-! ### Model -/

namespace GenericLinearRange

/-- The outer `none` is a failed check, the inner one the `null` of a range that is outside. -/
def withTruncatedPathRange (r : GenericLinearRange V) (fromOffset toOffset : ℤ) :
    Option (Option (GenericLinearRange V)) :=
  let newPathBegin := max fromOffset r.pathBegin
  let newPathEnd := min toOffset r.pathEnd
  if newPathEnd < newPathBegin then some none
  else
    let removedAtStart := newPathBegin - r.pathBegin
    let removedAtEnd := r.pathEnd - newPathEnd
    (make r.value (r.objectBegin + removedAtStart) (r.objectEnd - removedAtEnd) newPathBegin newPathEnd
      r.objectLength).map some

/-- The loop of `mapSubObject` from `prevObjectEndPathOffset` on. -/
def mapSubObjectFrom (r : GenericLinearRange V) (getSubObjectLength : S → ℤ) :
    ℤ → List S → Option (List (GenericLinearRange S))
  | _, [] => some []
  | prevObjectEndPathOffset, subObject :: subObjectList => do
      let subObjectLength := getSubObjectLength subObject
      let subObjectRange ← make subObject 0 subObjectLength prevObjectEndPathOffset
        (prevObjectEndPathOffset + subObjectLength) subObjectLength
      let truncated ← subObjectRange.withTruncatedPathRange r.pathBegin r.pathEnd
      let res ← r.mapSubObjectFrom getSubObjectLength (prevObjectEndPathOffset + subObjectLength)
        subObjectList
      some (truncated.toList ++ res)

def mapSubObject (r : GenericLinearRange V) (subObjectList : List S) (getSubObjectLength : S → ℤ) :
    Option (List (GenericLinearRange S)) :=
  r.mapSubObjectFrom getSubObjectLength (r.pathBegin - r.objectBegin) subObjectList

/-- `copy(length = length)`, which makes the checks of the constructor again. -/
def withLength (r : GenericLinearRange V) (length : ℤ) : Option (GenericLinearRange V) :=
  if h : 0 ≤ length ∧ r.objectBegin + length ≤ r.objectLength then
    some { r with length, length_nonneg := h.1, objectEnd_le := h.2 }
  else none

end GenericLinearRange

/-- The local variables of `mergeLinearRanges`. -/
structure MergeState (V : Type) where
  res : List (GenericLinearRange V)
  last : Option (GenericLinearRange V)

/-- The ranges that are returned when no more follows. -/
def MergeState.out (st : MergeState V) : List (GenericLinearRange V) := st.res ++ st.last.toList

/-- One turn of `mergeLinearRanges`, `none` when an assertion or a check fails. -/
def mergeEntry [DecidableEq V] (st : MergeState V) (entry : GenericLinearRange V) :
    Option (MergeState V) :=
  match st.last with
  | none => some ⟨st.res, some entry⟩
  | some last =>
      if last.value = entry.value then
        if last.pathBegin ≤ entry.pathBegin ∧ last.objectBegin ≤ entry.objectBegin then
          (last.withLength (entry.length + last.length)).map fun last => ⟨st.res, some last⟩
        else none
      else some ⟨st.res ++ [last], some entry⟩

def mergeLinearRanges [DecidableEq V] (rangeLists : List (List (GenericLinearRange V))) :
    Option (List (GenericLinearRange V)) :=
  (rangeLists.flatten.foldlM mergeEntry ⟨[], none⟩).map MergeState.out

def mapSubObjects [DecidableEq S] (ranges : List (GenericLinearRange V)) (listSubObject : V → List S)
    (subObjectLength : S → ℤ) : Option (List (GenericLinearRange S)) := do
  let subRanges ← ranges.mapM fun range =>
    range.mapSubObject (listSubObject range.value) subObjectLength
  mergeLinearRanges [subRanges.flatten]

/-! ### The walk through the sub-objects of an object -/

section Walk

variable (size : S → ℤ)

/-- At the offset of the object there is the sub-object `value`, at `subOffset` from its start. -/
def Walk : List S → ℤ → S → ℤ → Prop
  | [], _, _, _ => False
  | subObject :: subs, offset, value, subOffset =>
      (subObject = value ∧ offset = subOffset ∧ 0 ≤ offset ∧ offset ≤ size subObject) ∨
        Walk subs (offset - size subObject) value subOffset

/-- The first sub-object that is met at an offset, and where on it. -/
def firstMet : List S → ℤ → Option (S × ℤ)
  | [], _ => none
  | subObject :: subs, offset =>
      if offset ≤ size subObject then some (subObject, offset)
      else firstMet subs (offset - size subObject)

/-- The last sub-object that is met at an offset, and where on it. -/
def lastMet : List S → ℤ → Option (S × ℤ)
  | [], _ => none
  | [subObject], offset => some (subObject, offset)
  | subObject :: next :: subs, offset =>
      if offset < size subObject then some (subObject, offset)
      else lastMet (next :: subs) (offset - size subObject)

/-- The sub-objects make up an object of the given length, and none is followed by itself. -/
structure Decomposes (subs : List S) (objectLength : ℤ) : Prop where
  ne_nil : subs ≠ []
  nonneg : ∀ subObject ∈ subs, 0 ≤ size subObject
  sum : (subs.map size).sum = objectLength
  chain : subs.IsChain (· ≠ ·)

end Walk

/-- The sub-object `value` is met at the path offset, at `subOffset` from its start, on the walk
    through the sub-objects of one of the ranges. -/
def Walks (subsOf : V → List S) (size : S → ℤ)
    (ranges : List (GenericLinearRange V)) (pathOffset : ℤ) (value : S) (subOffset : ℤ) : Prop :=
  ∃ r ∈ ranges, r.containsPathOffset pathOffset ∧
    Walk size (subsOf r.value) (r.offsetFromTrainPath pathOffset) value subOffset

/-- A range that follows another: on the same object it goes on where the other stops, and on another
    object it does not start with the sub-object the other stops on, but where the other stops. -/
def Follows (subsOf : V → List S) (size : S → ℤ) (r r' : GenericLinearRange V) : Prop :=
  (r.value = r'.value → r.objectEnd = r'.objectBegin) ∧
  (r.value ≠ r'.value → ∀ {value : S} {stop start : ℤ},
    lastMet size (subsOf r.value) r.objectEnd = some (value, stop) →
    firstMet size (subsOf r'.value) r'.objectBegin = some (value, start) →
    stop = start)

section Met

variable {size : S → ℤ} {value value' : S} {stop start : ℤ}

theorem lastMet_zero : ∀ {subs : List S}, (∀ s ∈ subs, 0 ≤ size s) →
    lastMet size subs 0 = some (value, stop) → stop = 0
  | [subObject], _, hlast => by
    cases hlast
    rfl
  | subObject :: next :: subs, hnonneg, hlast => by
    obtain ⟨hlength, hnonneg⟩ := forall_mem_cons.mp hnonneg
    rw [lastMet] at hlast
    split at hlast
    · cases hlast
      rfl
    · rw [show 0 - size subObject = 0 by omega] at hlast
      exact lastMet_zero hnonneg hlast

/-- At one offset the first and the last sub-object met are the same, or the first one ends and the
    last one starts there. -/
theorem met_cases : ∀ {subs : List S} {offset : ℤ}, (∀ s ∈ subs, 0 ≤ size s) →
    lastMet size subs offset = some (value, stop) → firstMet size subs offset = some (value', start) →
    (value = value' ∧ stop = start) ∨ (stop = 0 ∧ start = size value')
  | [subObject], offset, _, hlast, hfirst => by
    rw [firstMet] at hfirst
    split at hfirst
    · cases hlast
      cases hfirst
      exact .inl ⟨rfl, rfl⟩
    · cases hfirst
  | subObject :: next :: subs, offset, hnonneg, hlast, hfirst => by
    obtain ⟨hlength, hnonneg'⟩ := forall_mem_cons.mp hnonneg
    rw [lastMet] at hlast
    rw [firstMet] at hfirst
    rcases lt_trichotomy offset (size subObject) with hlt | heq | hgt
    · rw [if_pos hlt] at hlast
      rw [if_pos hlt.le] at hfirst
      cases hlast
      cases hfirst
      exact .inl ⟨rfl, rfl⟩
    · rw [if_neg heq.not_lt, heq, Int.sub_self] at hlast
      rw [if_pos heq.le] at hfirst
      cases hfirst
      exact .inr ⟨lastMet_zero hnonneg' hlast, heq⟩
    · rw [if_neg hgt.le.not_gt] at hlast
      rw [if_neg hgt.not_ge] at hfirst
      exact met_cases hnonneg' hlast hfirst

theorem walk_of_lastMet : ∀ {subs : List S} {offset : ℤ}, 0 ≤ offset → offset ≤ (subs.map size).sum →
    lastMet size subs offset = some (value, stop) → Walk size subs offset value stop
  | [subObject], offset, hoffset, hle, hlast => by
    cases hlast
    exact .inl ⟨rfl, rfl, hoffset, by simpa using hle⟩
  | subObject :: next :: subs, offset, hoffset, hle, hlast => by
    rw [map_cons, sum_cons] at hle
    rw [lastMet] at hlast
    split at hlast
    · cases hlast
      exact .inl ⟨rfl, rfl, hoffset, by omega⟩
    · exact .inr (walk_of_lastMet (by omega) (by omega) hlast)

end Met

/-! ### What lists of ranges tell -/

theorem offsetFromTrainPath_pathBegin (r : GenericLinearRange V) :
    r.offsetFromTrainPath r.pathBegin = r.objectBegin :=
  Int.sub_sub_self r.pathBegin r.objectBegin

theorem offsetFromTrainPath_pathEnd (r : GenericLinearRange V) :
    r.offsetFromTrainPath r.pathEnd = r.objectEnd := by
  simp only [offsetFromTrainPath, objectAbsolutePathStart, pathEnd, objectEnd]
  omega

/-- What two lists tell, one of them or the other. -/
theorem describes_append (ranges ranges' : List (GenericLinearRange V)) :
    Describes (ranges ++ ranges') = Describes ranges ⊔ Describes ranges' := by
  ext p value objectOffset
  simp only [Describes, mem_append, or_and_right, exists_or]
  rfl

variable {r : GenericLinearRange V}

theorem describes_singleton {p : ℤ} {value : V} {objectOffset : ℤ} :
    Describes [r] p value objectOffset ↔ r.containsPathOffset p ∧ r.value = value ∧
      r.offsetFromTrainPath p = objectOffset := by
  simp only [Describes, mem_singleton, exists_eq_left]

theorem describes_cons (r : GenericLinearRange V) (ranges : List (GenericLinearRange V)) :
    Describes (r :: ranges) = Describes [r] ⊔ Describes ranges :=
  describes_append [r] ranges

theorem covers_append {b c : ℤ} : ∀ {ranges ranges' : List (GenericLinearRange V)} {a : ℤ},
    Covers ranges a b → Covers ranges' b c → Covers (ranges ++ ranges') a c
  | [], _, _, h, h' => by rwa [show _ = b from h]
  | _ :: _, _, _, ⟨ha, h⟩, h' => ⟨ha, covers_append h h'⟩

theorem covers_concat {x : GenericLinearRange V} {b : ℤ} :
    ∀ {ranges : List (GenericLinearRange V)} {a : ℤ},
    Covers (ranges ++ [x]) a b ↔ Covers ranges a x.pathBegin ∧ x.pathEnd = b
  | [], _ => and_congr_left' ⟨Eq.symm, Eq.symm⟩
  | _ :: _, _ => (and_congr_right' covers_concat).trans and_assoc.symm

/-! ### The pieces of one range -/

/-- What is left between two path offsets of a sub-object that starts at `begin`. -/
structure IsPiece (size : S → ℤ) (lo hi begin : ℤ) (subObject : S)
    (piece : GenericLinearRange S) : Prop where
  value : piece.value = subObject
  pathBegin : piece.pathBegin = max lo begin
  pathEnd : piece.pathEnd = min hi (begin + size subObject)
  start : piece.objectAbsolutePathStart = begin
  objectLength : piece.objectLength = size subObject

/-- What is left between two path offsets of sub-objects that follow each other from `begin` on. -/
inductive Pieces (size : S → ℤ) (lo hi : ℤ) :
    ℤ → List S → List (GenericLinearRange S) → Prop
  | nil (begin : ℤ) : Pieces size lo hi begin [] []
  | met {begin : ℤ} {subObject : S} {subs : List S} {piece : GenericLinearRange S}
      {pieces : List (GenericLinearRange S)} : 0 ≤ size subObject →
      IsPiece size lo hi begin subObject piece →
      Pieces size lo hi (begin + size subObject) subs pieces →
      Pieces size lo hi begin (subObject :: subs) (piece :: pieces)
  | missed {begin : ℤ} {subObject : S} {subs : List S} {pieces : List (GenericLinearRange S)} :
      0 ≤ size subObject →
      min hi (begin + size subObject) < max lo begin →
      Pieces size lo hi (begin + size subObject) subs pieces →
      Pieces size lo hi begin (subObject :: subs) pieces

section Pieces

variable {size : S → ℤ} {lo hi begin : ℤ}

section Piece

variable {subObject : S} {piece : GenericLinearRange S}

variable (hpiece : IsPiece size lo hi begin subObject piece)

include hpiece in
theorem IsPiece.le : max lo begin ≤ min hi (begin + size subObject) := by
  have hlength := piece.length_nonneg
  rw [← hpiece.pathBegin, ← hpiece.pathEnd, GenericLinearRange.pathEnd]
  omega

include hpiece in
theorem IsPiece.objectEnd : piece.objectEnd = min hi (begin + size subObject) - begin := by
  have hstart := hpiece.start
  rw [objectAbsolutePathStart] at hstart
  rw [← hpiece.pathEnd, GenericLinearRange.objectEnd, GenericLinearRange.pathEnd]
  omega

include hpiece in
theorem IsPiece.describes {p : ℤ}
    {value : S} {subOffset : ℤ} : Describes [piece] p value subOffset ↔ (lo ≤ p ∧ p ≤ hi) ∧
      subObject = value ∧ p - begin = subOffset ∧ 0 ≤ p - begin ∧ p - begin ≤ size subObject := by
  rw [describes_singleton, containsPathOffset, hpiece.pathBegin, hpiece.pathEnd, hpiece.value,
    offsetFromTrainPath, hpiece.start]
  constructor
  · rintro ⟨⟨hbegin, hend⟩, rfl, rfl⟩
    exact ⟨⟨by omega, by omega⟩, rfl, rfl, by omega, by omega⟩
  · rintro ⟨⟨hlo, hhi⟩, rfl, rfl, hbegin, hend⟩
    exact ⟨⟨by omega, by omega⟩, rfl, rfl⟩

/-- A sub-object is cut to the range, or left out when it does not touch it. -/
theorem withTruncatedPathRange_whole (lo hi begin : ℤ) (hlength : 0 ≤ size subObject) :
    ∃ whole, make subObject 0 (size subObject) begin (begin + size subObject) (size subObject) = some whole ∧
      ((min hi (begin + size subObject) < max lo begin ∧
          whole.withTruncatedPathRange lo hi = some none) ∨
        ∃ piece, whole.withTruncatedPathRange lo hi = some (some piece) ∧
          IsPiece size lo hi begin subObject piece) := by
  refine ⟨_, dif_pos ⟨by omega, by omega, by omega, le_rfl⟩, ?_⟩
  simp only [withTruncatedPathRange, pathEnd, GenericLinearRange.objectEnd,
    show begin + (begin + size subObject - begin) = begin + size subObject by
      omega]
  by_cases hlt : min hi (begin + size subObject) < max lo begin
  · exact .inl ⟨hlt, if_pos hlt⟩
  · rw [if_neg hlt, make, dif_pos ⟨by omega, by omega, by omega, by omega⟩]
    refine .inr ⟨_, rfl, rfl, rfl, ?_, ?_, rfl⟩
    · exact add_sub_cancel (max lo begin) _
    · simp only [objectAbsolutePathStart]
      omega

end Piece

/-- The loop of `mapSubObject` succeeds. -/
theorem mapSubObjectFrom_pieces (r : GenericLinearRange V) : ∀ {subs : List S} (begin : ℤ),
    (∀ s ∈ subs, 0 ≤ size s) → ∃ pieces, r.mapSubObjectFrom size begin subs = some pieces ∧
      Pieces size r.pathBegin r.pathEnd begin subs pieces
  | [], begin, _ => ⟨[], rfl, .nil begin⟩
  | subObject :: subs, begin, hnonneg => by
    obtain ⟨hlength, hnonneg⟩ := forall_mem_cons.mp hnonneg
    obtain ⟨pieces, hpieces, hspec⟩ := mapSubObjectFrom_pieces r (begin + size subObject) hnonneg
    obtain ⟨whole, hwhole, ⟨hlt, hnone⟩ | ⟨piece, hpiece, hisPiece⟩⟩ :=
      withTruncatedPathRange_whole r.pathBegin r.pathEnd begin hlength
    · refine ⟨pieces, ?_, .missed hlength hlt hspec⟩
      simp [mapSubObjectFrom, hwhole, hpieces, hnone]
    · refine ⟨piece :: pieces, ?_, .met hlength hisPiece hspec⟩
      simp [mapSubObjectFrom, hwhole, hpieces, hpiece]

variable {subs : List S} {pieces : List (GenericLinearRange S)} (h : Pieces size lo hi begin subs pieces)

include h

/-- What is met at a path offset are the sub-objects of the walk. -/
theorem Pieces.describes {p : ℤ} {value : S} {subOffset : ℤ} : Describes pieces p value subOffset ↔
    (lo ≤ p ∧ p ≤ hi) ∧ Walk size subs (p - begin) value subOffset := by
  induction h with
  | nil begin => exact ⟨fun ⟨_, hr, _⟩ => (nomatch hr), fun h => h.2.elim⟩
  | met _ hpiece _ ih =>
    rw [Walk, and_or_left, Int.sub_sub, ← ih, ← hpiece.describes, describes_cons]
    rfl
  | missed _ hlt _ ih =>
    rw [ih, Walk, and_or_left, Int.sub_sub, or_iff_right]
    rintro ⟨⟨hlo, hhi⟩, -, -, hbegin, hend⟩
    omega

/-- Behind the range nothing is met. -/
theorem Pieces.eq_nil (hlt : hi < begin) : pieces = [] := by
  induction h with
  | nil begin => rfl
  | met _ hpiece _ _ =>
    have := hpiece.le
    omega
  | missed hlength _ _ ih => exact ih (by omega)

/-- From the start of the range on no sub-object is left out between two others. -/
theorem Pieces.values_prefix (hle : lo ≤ begin) : pieces.map (·.value) <+: subs := by
  induction h with
  | nil begin => exact prefix_rfl
  | met hlength hpiece _ ih =>
    rw [map_cons, hpiece.value]
    exact cons_prefix_cons.mpr ⟨rfl, ih (by omega)⟩
  | missed hlength hlt hpieces _ =>
    rw [hpieces.eq_nil (by omega)]
    exact nil_prefix

theorem Pieces.values_infix : pieces.map (·.value) <:+: subs := by
  induction h with
  | nil begin => exact infix_rfl
  | met hlength hpiece hpieces _ =>
    have hle := hpiece.le
    rw [map_cons, hpiece.value]
    exact (cons_prefix_cons.mpr ⟨rfl, hpieces.values_prefix (by omega)⟩).isInfix
  | missed _ _ _ ih => exact ih.trans (suffix_cons _ _).isInfix

theorem Pieces.objectLength : ∀ piece ∈ pieces, piece.objectLength = size piece.value := by
  induction h with
  | nil begin => simp
  | met _ hpiece _ ih =>
    exact forall_mem_cons.mpr ⟨by rw [hpiece.objectLength, hpiece.value], ih⟩
  | missed _ _ _ ih => exact ih

theorem Pieces.ne_nil (hne : subs ≠ []) (hle : lo ≤ hi) (hbegin : begin ≤ hi)
    (hend : lo ≤ begin + (subs.map size).sum) : pieces ≠ [] := by
  induction h with
  | nil begin => exact absurd rfl hne
  | met _ _ _ _ => exact cons_ne_nil _ _
  | missed hlength hlt hpieces ih =>
    rw [map_cons, sum_cons] at hend
    refine ih ?_ (by omega) (by omega)
    rintro rfl
    rw [map_nil, sum_nil] at hend
    omega

variable {piece : GenericLinearRange S}

theorem Pieces.firstMet (hpiece : pieces.head? = some piece) (hle : lo ≤ hi) (hbegin : begin ≤ lo) :
    firstMet size subs (lo - begin) = some (piece.value, piece.objectBegin) := by
  induction h with
  | nil begin => cases hpiece
  | met _ hmet _ _ =>
    cases hpiece
    have hpathBegin := hmet.pathBegin
    have hstart := hmet.start
    have hmet_le := hmet.le
    rw [objectAbsolutePathStart] at hstart
    rw [Path.firstMet, if_pos (by omega), hmet.value, show _ - _ = piece.objectBegin by omega]
  | missed _ hlt _ ih =>
    rw [Path.firstMet, if_neg (by omega), Int.sub_sub]
    exact ih hpiece (by omega)

variable (hle : lo ≤ hi) (hbegin : begin ≤ hi) (hend : hi ≤ begin + (subs.map size).sum)

include hle hbegin hend

/-- The pieces follow each other up to the end of the range. -/
theorem Pieces.covers : Covers pieces (max lo begin) hi := by
  induction h with
  | nil begin =>
    rw [map_nil, sum_nil] at hend
    change max lo begin = hi
    omega
  | @met begin subObject _ piece pieces hlength hpiece hpieces ih =>
    rw [map_cons, sum_cons] at hend
    have hmet := hpiece.le
    refine ⟨hpiece.pathBegin, ?_⟩
    change Covers pieces piece.pathEnd hi
    rw [hpiece.pathEnd]
    rcases le_or_gt (begin + size subObject) hi with hle' | hlt
    · have hcovers := ih hle' (by omega)
      rwa [max_eq_right (by omega), ← min_eq_right hle'] at hcovers
    · rw [hpieces.eq_nil hlt, min_eq_left hlt.le]
      rfl
  | @missed begin subObject _ _ hlength hlt hpieces ih =>
    rw [map_cons, sum_cons] at hend
    have hcovers := ih (by omega) (by omega)
    rwa [show max lo (begin + size subObject) = max lo begin by omega] at hcovers

theorem Pieces.lastMet (hpiece : pieces.getLast? = some piece) :
    lastMet size subs (hi - begin) = some (piece.value, piece.objectEnd) := by
  induction h with
  | nil begin => cases hpiece
  | @met begin subObject subs piece' pieces hlength hmet hpieces ih =>
    rw [map_cons, sum_cons] at hend
    have hobjectEnd := hmet.objectEnd
    cases subs with
    | nil =>
      cases hpieces
      obtain rfl : piece' = piece := Option.some.inj hpiece
      rw [map_nil, sum_nil] at hend
      rw [lastMet, hmet.value, show hi - begin = piece'.objectEnd by omega]
    | cons next subs =>
      rw [Path.lastMet]
      split
      next hlt =>
        rw [hpieces.eq_nil (by omega)] at hpiece
        obtain rfl : piece' = piece := Option.some.inj hpiece
        rw [hmet.value, show hi - begin = piece'.objectEnd by omega]
      next hge =>
        have hne := hpieces.ne_nil (cons_ne_nil _ _) hle (by omega) (by omega)
        obtain ⟨first, pieces, rfl⟩ := exists_cons_of_ne_nil hne
        rw [Int.sub_sub]
        exact ih (by omega) (by omega) hpiece
  | @missed begin subObject subs pieces hlength hlt hpieces ih =>
    rw [map_cons, sum_cons] at hend
    cases subs with
    | nil => cases hpieces; cases hpiece
    | cons next subs =>
      rw [Path.lastMet, if_neg (by omega), Int.sub_sub]
      exact ih (by omega) (by omega) hpiece

end Pieces

/-- What `mapSubObject` makes of one range. -/
structure Parts (size : S → ℤ) (subs : List S) (r : GenericLinearRange V)
    (parts : List (GenericLinearRange S)) : Prop where
  ne_nil : parts ≠ []
  covers : Covers parts r.pathBegin r.pathEnd
  describes : ∀ p value subOffset, Describes parts p value subOffset ↔
    r.containsPathOffset p ∧
      Walk size subs (r.offsetFromTrainPath p) value subOffset
  chain : (parts.map (·.value)).IsChain (· ≠ ·)
  objectLength : ∀ part ∈ parts, part.objectLength = size part.value
  firstMet : ∀ part, parts.head? = some part →
    firstMet size subs r.objectBegin = some (part.value, part.objectBegin)
  lastMet : ∀ part, parts.getLast? = some part →
    lastMet size subs r.objectEnd = some (part.value, part.objectEnd)

theorem mapSubObject_parts {size : S → ℤ} {subs : List S}
    (hdecomposes : Decomposes size subs r.objectLength) :
    ∃ parts, r.mapSubObject subs size = some parts ∧ Parts size subs r parts := by
  obtain ⟨parts, hparts, hpieces⟩ :=
    mapSubObjectFrom_pieces r (r.pathBegin - r.objectBegin) hdecomposes.nonneg
  have hlength := r.length_nonneg
  have hbegin := r.objectBegin_nonneg
  have hend := r.objectEnd_le
  rw [← hdecomposes.sum] at hend
  have hpathEnd : r.pathEnd = r.pathBegin + r.length := rfl
  have hobjectEnd : r.objectEnd = r.objectBegin + r.length := rfl
  refine ⟨parts, hparts, ?_⟩
  exact
    { ne_nil := hpieces.ne_nil hdecomposes.ne_nil (by omega) (by omega) (by omega)
      covers := by
        have hcovers := hpieces.covers (by omega) (by omega) (by omega)
        rwa [max_eq_left (by omega)] at hcovers
      describes := fun p value subOffset => hpieces.describes
      chain := hdecomposes.chain.infix hpieces.values_infix
      objectLength := hpieces.objectLength
      firstMet := by
        intro part hpart
        have hfirst := hpieces.firstMet hpart (by omega) (by omega)
        rwa [Int.sub_sub_self] at hfirst
      lastMet := by
        intro part hpart
        have hlast := hpieces.lastMet (by omega) (by omega) (by omega) hpart
        rwa [show r.pathEnd - (r.pathBegin - r.objectBegin) = r.objectEnd by omega] at hlast }

/-! ### Putting the pieces together -/

section Merge

variable {res : List (GenericLinearRange S)} {last entry : GenericLinearRange S}

/-- One piece in the place of two of which the second goes on where the first stops. -/
structure IsJoin (last entry merged : GenericLinearRange S) : Prop where
  value : merged.value = last.value
  pathBegin : merged.pathBegin = last.pathBegin
  objectBegin : merged.objectBegin = last.objectBegin
  pathEnd : merged.pathEnd = entry.pathEnd
  objectEnd : merged.objectEnd = entry.objectEnd
  objectLength : merged.objectLength = last.objectLength

theorem IsJoin.describes {merged : GenericLinearRange S} (hjoin : IsJoin last entry merged)
    (hvalue : last.value = entry.value) (hpath : last.pathEnd = entry.pathBegin)
    (hobject : last.objectEnd = entry.objectBegin) :
    Describes [merged] = Describes [last] ⊔ Describes [entry] := by
  have h1 := last.length_nonneg
  have h2 := entry.length_nonneg
  have hlast : last.pathEnd = last.pathBegin + last.length := rfl
  have hentry : entry.pathEnd = entry.pathBegin + entry.length := rfl
  rw [GenericLinearRange.objectEnd] at hobject
  ext p value objectOffset
  change _ ↔ Describes [last] p value objectOffset ∨ Describes [entry] p value objectOffset
  simp only [describes_singleton, containsPathOffset, offsetFromTrainPath, objectAbsolutePathStart,
    hjoin.pathBegin, hjoin.pathEnd, hjoin.objectBegin, hjoin.value, hvalue]
  constructor
  · rintro ⟨hp, rfl, hoffset⟩
    rcases le_or_gt p last.pathEnd with hle | hlt
    · exact .inl ⟨⟨hp.1, hle⟩, rfl, hoffset⟩
    · exact .inr ⟨⟨by omega, hp.2⟩, rfl, by omega⟩
  · rintro (⟨hp, rfl, hoffset⟩ | ⟨hp, rfl, hoffset⟩)
    · exact ⟨⟨hp.1, by omega⟩, rfl, hoffset⟩
    · exact ⟨⟨by omega, hp.2⟩, rfl, by omega⟩

variable [DecidableEq S]

theorem mergeEntry_other (h : last.value ≠ entry.value) :
    mergeEntry ⟨res, some last⟩ entry = some ⟨res ++ [last], some entry⟩ :=
  if_neg h

/-- A piece that goes on where the last one stops. -/
theorem mergeEntry_contiguous (res : List (GenericLinearRange S)) (hvalue : last.value = entry.value)
    (hpath : last.pathEnd = entry.pathBegin) (hobject : last.objectEnd = entry.objectBegin)
    (hlength : last.objectLength = entry.objectLength) :
    ∃ merged, mergeEntry ⟨res, some last⟩ entry = some ⟨res, some merged⟩ ∧
      IsJoin last entry merged := by
  have h1 := last.length_nonneg
  have h2 := entry.length_nonneg
  have h3 := entry.objectEnd_le
  simp only [pathEnd, objectEnd] at hpath hobject
  simp only [mergeEntry, if_pos hvalue]
  rw [if_pos ⟨by omega, by omega⟩, withLength, dif_pos ⟨by omega, by omega⟩]
  refine ⟨_, rfl, rfl, rfl, rfl, ?_, ?_, rfl⟩
  · simp only [pathEnd]
    omega
  · simp only [objectEnd]
    omega

/-- A piece without length changes nothing. -/
theorem mergeEntry_point (hvalue : last.value = entry.value) (hpath : last.pathBegin ≤ entry.pathBegin)
    (hobject : last.objectBegin ≤ entry.objectBegin) (hlength : entry.length = 0) :
    mergeEntry ⟨res, some last⟩ entry = some ⟨res, some last⟩ := by
  simp only [mergeEntry, if_pos hvalue, if_pos (And.intro hpath hobject), hlength, Int.zero_add, withLength]
  rw [dif_pos ⟨last.length_nonneg, last.objectEnd_le⟩]
  rfl

/-- Pieces of other sub-objects in a row are all kept. -/
theorem mergeEntry_chain : ∀ {entries : List (GenericLinearRange S)} (res : List (GenericLinearRange S))
    {last : GenericLinearRange S}, ((last :: entries).map (·.value)).IsChain (· ≠ ·) →
    ∃ st, entries.foldlM mergeEntry ⟨res, some last⟩ = some st ∧
      st.out = res ++ last :: entries ∧ st.last = (last :: entries).getLast?
  | [], res, last, _ => ⟨_, rfl, rfl, rfl⟩
  | entry :: entries, res, last, hchain => by
    obtain ⟨hne, hchain⟩ := isChain_cons_cons.mp hchain
    obtain ⟨st, hst, hout, hlast⟩ := mergeEntry_chain (res ++ [last]) hchain
    refine ⟨st, ?_, ?_, ?_⟩
    · rw [foldlM_cons, mergeEntry_other hne]
      exact hst
    · rw [hout, append_assoc, singleton_append]
    · rw [hlast, getLast?_cons_cons]

end Merge

section Ranges

variable (subsOf : V → List S) (size : S → ℤ)

/-- The state after the pieces of `ranges`, whose last one is `r`: it tells the walk through them, and
    its last piece is the last sub-object that `r` meets. -/
structure Merged (a : ℤ) (ranges : List (GenericLinearRange V)) (r : GenericLinearRange V)
    (st : MergeState S) : Prop where
  mem : r ∈ ranges
  covers : Covers st.out a r.pathEnd
  describes : Describes st.out = Walks subsOf size ranges
  last : ∃ last, st.last = some last ∧ last.pathEnd = r.pathEnd ∧
    last.objectLength = size last.value ∧
    lastMet size (subsOf r.value) r.objectEnd = some (last.value, last.objectEnd)

variable {subsOf size}

theorem walks_append (ranges ranges' : List (GenericLinearRange V)) :
    Walks subsOf size (ranges ++ ranges') = Walks subsOf size ranges ⊔ Walks subsOf size ranges' := by
  ext p value subOffset
  simp only [Walks, mem_append, or_and_right, exists_or]
  rfl

variable {parts : List (GenericLinearRange S)}

theorem Parts.walks (hparts : Parts size (subsOf r.value) r parts) :
    Describes parts = Walks subsOf size [r] := by
  ext p value subOffset
  rw [hparts.describes]
  simp only [Walks, mem_singleton, exists_eq_left]

theorem Covers.pathEnd_getLast : ∀ {ranges : List (GenericLinearRange V)} {a b : ℤ}
    {r : GenericLinearRange V}, Covers ranges a b → ranges.getLast? = some r → r.pathEnd = b
  | [_], _, _, _, ⟨_, hb⟩, hr => by
    cases hr
    exact hb
  | _ :: r' :: ranges, _, _, _, ⟨_, h⟩, hr => by
    have hrest : Covers (r' :: ranges) _ _ := h
    exact hrest.pathEnd_getLast hr

/-- Two pieces that stop at the same place. -/
structure SameEnd (piece piece' : GenericLinearRange S) : Prop where
  value : piece.value = piece'.value
  pathEnd : piece.pathEnd = piece'.pathEnd
  objectEnd : piece.objectEnd = piece'.objectEnd
  objectLength : piece.objectLength = piece'.objectLength

/-- The last of some pieces, when the first one may have been replaced. -/
theorem SameEnd.getLast {piece piece' : GenericLinearRange S} :
    ∀ {pieces : List (GenericLinearRange S)}, (pieces = [] → SameEnd piece piece') →
    ∃ last last', (piece :: pieces).getLast? = some last ∧ (piece' :: pieces).getLast? = some last' ∧
      SameEnd last last'
  | [], h => ⟨piece, piece', rfl, rfl, h rfl⟩
  | next :: pieces, _ => by
    have hlast := getLast?_eq_some_getLast (cons_ne_nil next pieces)
    exact ⟨_, _, hlast, hlast, rfl, rfl, rfl, rfl⟩

/-- A range that goes on at the end of one of several sub-objects that meet there: its first piece is
    a point, and others follow. -/
theorem point_of_same {r r' : GenericLinearRange V} {subs : List S}
    (hdecomposes : Decomposes size subs r.objectLength)
    (hoffset : r.objectEnd = r'.objectBegin) {first : GenericLinearRange S}
    {rest : List (GenericLinearRange S)} (hparts : Parts size subs r' (first :: rest)) {value : S} {stop : ℤ}
    (hlastMet : lastMet size subs r.objectEnd = some (value, stop))
    (hne : stop ≠ first.objectBegin) : first.length = 0 ∧ stop = 0 ∧ rest ≠ [] := by
  have hfirstMet := hparts.firstMet first rfl
  rw [← hoffset] at hfirstMet
  obtain ⟨-, heq⟩ | ⟨hstop, hstart⟩ := met_cases hdecomposes.nonneg hlastMet hfirstMet
  · exact absurd heq hne
  refine ⟨?_, hstop, ?_⟩
  · have hend := first.objectEnd_le
    have hlength := first.length_nonneg
    rw [hparts.objectLength first mem_cons_self] at hend
    omega
  · rintro rfl
    -- the only piece would also be the last sub-object met
    have hwalk : Walk size subs r.objectEnd value stop := by
      refine walk_of_lastMet ?_ ?_ hlastMet
      · exact Int.add_nonneg r.objectBegin_nonneg r.length_nonneg
      · rw [hdecomposes.sum]
        exact r.objectEnd_le
    rw [hoffset, ← offsetFromTrainPath_pathBegin] at hwalk
    have hdescribes := (hparts.describes r'.pathBegin value stop).mpr
      ⟨⟨le_rfl, Int.le_add_of_nonneg_right r'.length_nonneg⟩, hwalk⟩
    have hbegin : first.pathBegin = r'.pathBegin := hparts.covers.1
    rw [describes_singleton, ← hbegin, offsetFromTrainPath_pathBegin] at hdescribes
    exact hne hdescribes.2.2.symm

variable {a : ℤ} {ranges : List (GenericLinearRange V)} {r r' : GenericLinearRange V}
  {st : MergeState S} {first last : GenericLinearRange S} {rest res : List (GenericLinearRange S)}

/-- A point at the end of a range on the same object tells what the range tells there. -/
theorem Merged.describes_point (hmerged : Merged subsOf size a ranges r st)
    (hsame : r.value = r'.value) (hoffset : r.objectEnd = r'.objectBegin)
    (hpath : r'.pathBegin = r.pathEnd) (hparts : Parts size (subsOf r'.value) r' (first :: rest))
    (hpoint : first.length = 0) : Describes [first] ≤ Describes st.out := by
  intro p value subOffset hdescribes
  obtain rfl : p = r'.pathBegin := by
    have hbounds := (describes_singleton.mp hdescribes).1
    rw [containsPathOffset, pathEnd] at hbounds
    have : first.pathBegin = r'.pathBegin := hparts.covers.1
    omega
  have hwalk := ((hparts.describes _ value subOffset).mp
    ((describes_cons first rest).ge _ _ _ (.inl hdescribes))).2
  rw [offsetFromTrainPath_pathBegin, ← hoffset, ← hsame, ← offsetFromTrainPath_pathEnd] at hwalk
  rw [hmerged.describes, hpath]
  exact ⟨r, hmerged.mem, ⟨Int.le_add_of_nonneg_right r.length_nonneg, le_rfl⟩, hwalk⟩

variable [DecidableEq S]

theorem merged_first (hparts : Parts size (subsOf r.value) r parts) :
    ∃ st, parts.foldlM mergeEntry ⟨[], none⟩ = some st ∧ Merged subsOf size r.pathBegin [r] r st := by
  obtain ⟨first, rest, rfl⟩ := exists_cons_of_ne_nil hparts.ne_nil
  obtain ⟨st, hst, hout, hlast⟩ := mergeEntry_chain [] hparts.chain
  have hgetLast := getLast?_eq_some_getLast hparts.ne_nil
  exact ⟨st, hst, mem_singleton_self r, hout ▸ hparts.covers, hout ▸ hparts.walks, _,
    hlast.trans hgetLast, hparts.covers.pathEnd_getLast hgetLast,
    hparts.objectLength _ (getLast_mem hparts.ne_nil), hparts.lastMet _ hgetLast⟩

/-- The rest of the pieces of a range, after the first one has been put in. -/
theorem Merged.others (hmerged : Merged subsOf size a ranges r st)
    (hparts : Parts size (subsOf r'.value) r' (first :: rest))
    (hvalue : last.value = first.value) (hpathEnd : last.pathEnd = first.pathEnd)
    (hend : rest = [] → SameEnd last first) (hcovers : Covers (res ++ [last]) a last.pathEnd)
    (hdescribes : Describes (res ++ [last]) = Describes st.out ⊔ Describes [first]) :
    ∃ st', rest.foldlM mergeEntry ⟨res, some last⟩ = some st' ∧
      Merged subsOf size a (ranges ++ [r']) r' st' := by
  have hchain := hparts.chain
  rw [map_cons, ← hvalue, ← map_cons] at hchain
  obtain ⟨st', hst', hout, hlast⟩ := mergeEntry_chain res hchain
  obtain ⟨final, final', hfinal, hfinal', hsame⟩ := SameEnd.getLast hend
  rw [← singleton_append, ← append_assoc] at hout
  refine ⟨st', hst', mem_append_right _ (mem_singleton_self r'), ?_, ?_, final,
    hlast.trans hfinal, ?_, ?_, ?_⟩
  · have hrest : Covers rest first.pathEnd r'.pathEnd := hparts.covers.2
    rw [hout]
    exact covers_append hcovers (hpathEnd ▸ hrest)
  · rw [hout, describes_append, hdescribes, sup_assoc, ← describes_cons, hparts.walks,
      hmerged.describes, walks_append]
  · exact hsame.pathEnd.trans (hparts.covers.pathEnd_getLast hfinal')
  · rw [hsame.objectLength, hsame.value]
    exact hparts.objectLength _ (mem_of_getLast? hfinal')
  · rw [hsame.value, hsame.objectEnd]
    exact hparts.lastMet _ hfinal'

theorem Merged.range (hmerged : Merged subsOf size a ranges r st)
    (hdecomposes : Decomposes size (subsOf r.value) r.objectLength)
    (hfollows : Follows subsOf size r r') (hpath : r'.pathBegin = r.pathEnd)
    (hparts : Parts size (subsOf r'.value) r' parts) : ∃ st', parts.foldlM mergeEntry st = some st' ∧
      Merged subsOf size a (ranges ++ [r']) r' st' := by
  obtain ⟨first, rest, rfl⟩ := exists_cons_of_ne_nil hparts.ne_nil
  obtain ⟨res, _⟩ := st
  obtain ⟨last, rfl, hpathEnd, hlength, hlastMet⟩ := hmerged.last
  have hfirstMet := hparts.firstMet first rfl
  have hbegin : first.pathBegin = last.pathEnd := by
    have : first.pathBegin = r'.pathBegin := hparts.covers.1
    rw [this, hpath, hpathEnd]
  have hout : MergeState.out ⟨res, some last⟩ = res ++ [last] := rfl
  rw [foldlM_cons]
  by_cases hvalue : last.value = first.value
  · by_cases hobject : last.objectEnd = first.objectBegin
    · have hlength' : last.objectLength = first.objectLength := by
        rw [hlength, hparts.objectLength first mem_cons_self, hvalue]
      obtain ⟨merged, hmerge, hjoin⟩ := mergeEntry_contiguous res hvalue hbegin.symm hobject hlength'
      have hvalue' := hjoin.value.trans hvalue
      rw [hmerge]
      refine hmerged.others hparts hvalue' hjoin.pathEnd (fun _ => ⟨hvalue', hjoin.pathEnd,
        hjoin.objectEnd, hjoin.objectLength.trans hlength'⟩) ?_ ?_
      · rw [covers_concat, hjoin.pathBegin]
        exact ⟨(covers_concat.mp hmerged.covers).1, rfl⟩
      · rw [hout, describes_append, hjoin.describes hvalue hbegin.symm hobject, describes_append, sup_assoc]
    · have hsame : r.value = r'.value := by
        by_contra hne
        exact hobject (hfollows.2 hne hlastMet (hvalue ▸ hfirstMet))
      have hoffset := hfollows.1 hsame
      obtain ⟨hpoint, hstop, hrest⟩ := point_of_same hdecomposes hoffset (hsame ▸ hparts) hlastMet
        hobject
      have hle := last.length_nonneg
      have hnonneg := first.objectBegin_nonneg
      rw [objectEnd] at hstop
      rw [pathEnd] at hbegin
      rw [mergeEntry_point hvalue (by omega) (by omega) hpoint]
      refine hmerged.others hparts hvalue ?_ (fun hnil => absurd hnil hrest) ?_ ?_
      · rw [pathEnd, pathEnd]
        omega
      · rw [hpathEnd]
        exact hmerged.covers
      · exact (sup_eq_left.mpr (hmerged.describes_point hsame hoffset hpath hparts hpoint)).symm
  · rw [mergeEntry_other hvalue]
    refine hmerged.others hparts rfl rfl (fun _ => ⟨rfl, rfl, rfl, rfl⟩) ?_ (describes_append _ _)
    rw [covers_concat, hbegin, hpathEnd]
    exact ⟨hmerged.covers, rfl⟩

theorem merged_ranges : ∀ {ranges done : List (GenericLinearRange V)} {a b : ℤ}
    {r : GenericLinearRange V} {st : MergeState S}, Merged subsOf size a done r st →
    (∀ r' ∈ r :: ranges, Decomposes size (subsOf r'.value) r'.objectLength) →
    (r :: ranges).IsChain (Follows subsOf size) → Covers ranges r.pathEnd b →
    ∃ subRanges st', ranges.mapM (fun range =>
        range.mapSubObject (subsOf range.value) size) = some subRanges ∧
      subRanges.flatten.foldlM mergeEntry st = some st' ∧ Covers st'.out a b ∧
      Describes st'.out = Walks subsOf size (done ++ ranges)
  | [], done, a, b, r, st, hmerged, _, _, hcovers => by
    refine ⟨[], st, rfl, rfl, ?_, ?_⟩
    · have hb : r.pathEnd = b := hcovers
      exact hb ▸ hmerged.covers
    · rw [append_nil]
      exact hmerged.describes
  | r' :: ranges, done, a, b, r, st, hmerged, hdecomposes, hchain, ⟨hpath, hcovers⟩ => by
    obtain ⟨hr, hdecomposes⟩ := forall_mem_cons.mp hdecomposes
    obtain ⟨hfollows, hchain⟩ := isChain_cons_cons.mp hchain
    obtain ⟨parts, hmap, hparts⟩ := mapSubObject_parts (forall_mem_cons.mp hdecomposes).1
    obtain ⟨st₁, hst₁, hmerged₁⟩ := hmerged.range hr hfollows hpath hparts
    obtain ⟨subRanges, st₂, hmaps, hst₂, hcovers₂, hdescribes₂⟩ :=
      merged_ranges hmerged₁ hdecomposes hchain hcovers
    refine ⟨parts :: subRanges, st₂, ?_, ?_, hcovers₂, ?_⟩
    · rw [mapM_cons, hmap, hmaps]
      rfl
    · rw [flatten_cons, foldlM_append, hst₁]
      exact hst₂
    · rwa [append_assoc, singleton_append] at hdescribes₂

end Ranges

/-- `mapSubObjects` never fails on ranges that follow each other, and its ranges are those of the walk
    through the sub-objects: contiguous, over the same part of the path, and with at every path offset
    just the sub-objects and the offsets on them that the walk meets there. -/
theorem mapSubObjects_walks [DecidableEq S] (ranges : List (GenericLinearRange V))
    (subsOf : V → List S) (size : S → ℤ) (a b : ℤ) (hcovers : Covers ranges a b)
    (hdecomposes : ∀ r ∈ ranges, Decomposes size (subsOf r.value) r.objectLength)
    (hfollows : ranges.IsChain (Follows subsOf size)) :
    ∃ subRanges, mapSubObjects ranges subsOf size = some subRanges ∧ Covers subRanges a b ∧
      ∀ p value subOffset, Describes subRanges p value subOffset ↔
        Walks subsOf size ranges p value subOffset := by
  cases ranges with
  | nil =>
    refine ⟨[], rfl, hcovers, fun p value subOffset => ?_⟩
    exact ⟨fun ⟨_, hr, _⟩ => (nomatch hr), fun ⟨_, hr, _⟩ => (nomatch hr)⟩
  | cons r ranges =>
    obtain ⟨hbegin, hcovers⟩ := hcovers
    obtain ⟨parts, hmap, hparts⟩ := mapSubObject_parts (forall_mem_cons.mp hdecomposes).1
    obtain ⟨st, hst, hmerged⟩ := merged_first hparts
    obtain ⟨subRanges, st', hmaps, hst', hcovers', hdescribes⟩ :=
      merged_ranges hmerged hdecomposes hfollows hcovers
    refine ⟨st'.out, ?_, hbegin ▸ hcovers', fun p value subOffset => by rw [hdescribes]; rfl⟩
    rw [mapSubObjects, mapM_cons, hmap, hmaps]
    change mergeLinearRanges [(parts :: subRanges).flatten] = _
    rw [mergeLinearRanges, flatten_singleton, flatten_cons, foldlM_append, hst]
    change (subRanges.flatten.foldlM mergeEntry st).map _ = _
    rw [hst']
    rfl

/-- A range of an object of 20 m on the path. -/
def rangeOn (object : Bool) (objectBegin pathBegin length : ℤ) (hlength : 0 ≤ length)
    (hend : objectBegin + length ≤ 20) (hbegin : 0 ≤ objectBegin) : GenericLinearRange Bool :=
  ⟨object, objectBegin, pathBegin, length, 20, hlength, hend, hbegin⟩

/-- Two objects of two sub-objects of 10 m each. -/
def twoByTwo (last : ℕ) : Bool → List ℕ
  | false => [1, 2]
  | true => [3, last]

theorem twoByTwo_decomposes {last : ℕ} (hlast : 3 ≠ last) (object : Bool) :
    Decomposes (fun _ => 10) (twoByTwo last object) 20 := by
  cases object with
  | false => exact ⟨cons_ne_nil _ _, by simp, rfl, by simp [twoByTwo]⟩
  | true => exact ⟨cons_ne_nil _ _, by simp, rfl, by simpa [twoByTwo] using hlast⟩

/-- A path over the two objects, with a cut inside the first one. -/
theorem mapSubObjects_walks_cut :
    let ranges := [rangeOn false 4 100 11 (by decide) (by decide) (by decide),
      rangeOn false 15 111 5 (by decide) (by decide) (by decide),
      rangeOn true 0 116 7 (by decide) (by decide) (by decide)]
    ∃ subRanges, mapSubObjects ranges (twoByTwo 4) (fun _ => 10) = some subRanges ∧
      Covers subRanges 100 123 ∧ ∀ p value subOffset, Describes subRanges p value subOffset ↔
        Walks (twoByTwo 4) (fun _ => 10) ranges p value subOffset := by
  refine mapSubObjects_walks _ (twoByTwo 4) (fun _ => 10) 100 123 ⟨rfl, rfl, rfl, rfl⟩ ?_ ?_
  · intro r hr
    have hlength : r.objectLength = 20 := by
      simp only [mem_cons, not_mem_nil, or_false] at hr
      rcases hr with rfl | rfl | rfl <;> rfl
    rw [hlength]
    exact twoByTwo_decomposes (by decide) r.value
  · refine .cons_cons ⟨fun _ => rfl, fun hne => absurd rfl hne⟩
      (.cons_cons ⟨fun heq => (nomatch heq), fun _ => ?_⟩ (.singleton _))
    intro value stop start hlast hfirst
    cases hlast
    cases hfirst

/-- A range that stops after the first sub-object, and one on another object that starts inside the
    second sub-object of both: the point left of the first range is put together with it, and its
    offsets are wrong. -/
theorem mapSubObjects_inside :
    let r := rangeOn false 0 0 10 (by decide) (by decide) (by decide)
    let r' := rangeOn true 12 10 8 (by decide) (by decide) (by decide)
    Covers [r, r'] 0 18 ∧ r.value ≠ r'.value ∧
    (∀ object, Decomposes (fun _ => 10) (twoByTwo 2 object) 20) ∧
    (twoByTwo 2 false).getLast? ≠ (twoByTwo 2 true).head? ∧
    ∃ subRanges, mapSubObjects [r, r'] (twoByTwo 2) (fun _ => 10) = some subRanges ∧
      Describes subRanges 18 2 8 ∧ ¬ Walks (twoByTwo 2) (fun _ => 10) [r, r'] 18 2 8 := by
  refine ⟨⟨rfl, rfl, rfl⟩, by decide, twoByTwo_decomposes (by decide), by decide,
    [⟨1, 0, 0, 10, 10, by decide, by decide, by decide⟩,
      ⟨2, 0, 10, 8, 10, by decide, by decide, by decide⟩], rfl, ?_, ?_⟩
  · exact ⟨_, mem_cons_of_mem _ (mem_singleton_self _), ⟨by decide, by decide⟩, rfl, rfl⟩
  · rintro ⟨r, hr, hcontains, hwalk⟩
    simp only [mem_cons, not_mem_nil, or_false] at hr
    rcases hr with rfl | rfl
    · exact absurd hcontains.2 (by decide)
    · rcases hwalk with ⟨hvalue, -⟩ | ⟨-, hoffset, -⟩ | hnil
      · exact absurd hvalue (by decide)
      · exact absurd hoffset (by decide)
      · exact hnil

end Osrd.Path
