import Osrd.Lib.Partial
import Osrd.Lib.Tiling

/-! Model of the ranges of objects on a train path
    (`kt-osrd-path/src/main/kotlin/fr/sncf/osrd/path/interfaces/GenericLinearRange.kt`) and of the part of a
    list of ranges between two points of the path.

    What the ranges of a path tell is which object is at a path offset, and where on the object
    (`Describes`). -/

namespace Osrd.Path

open List

open Tiling (Tiles)

/-- The checks of the constructor are fields. -/
structure GenericLinearRange (V : Type) where
  value : V
  objectBegin : ℤ
  pathBegin : ℤ
  length : ℤ
  objectLength : ℤ
  length_nonneg : 0 ≤ length
  objectEnd_le : objectBegin + length ≤ objectLength
  objectBegin_nonneg : 0 ≤ objectBegin

namespace GenericLinearRange

variable {V : Type} (r : GenericLinearRange V)

def pathEnd : ℤ := r.pathBegin + r.length

def objectEnd : ℤ := r.objectBegin + r.length

def objectAbsolutePathStart : ℤ := r.pathBegin - r.objectBegin

def offsetFromTrainPath (pathOffset : ℤ) : ℤ :=
  pathOffset - r.objectAbsolutePathStart

def containsPathOffset (offset : ℤ) : Prop :=
  r.pathBegin ≤ offset ∧ offset ≤ r.pathEnd

/-- The constructor from the ends of the range; it throws when the lengths differ or a check fails. -/
def make (value : V) (objectBegin objectEnd pathBegin pathEnd objectLength : ℤ) :
    Option (GenericLinearRange V) :=
  if h : objectEnd - objectBegin = pathEnd - pathBegin ∧ 0 ≤ pathEnd - pathBegin ∧
      objectBegin + (pathEnd - pathBegin) ≤ objectLength ∧ 0 ≤ objectBegin then
    some ⟨value, objectBegin, pathBegin, pathEnd - pathBegin, objectLength, h.2.1, h.2.2.1, h.2.2.2⟩
  else none

end GenericLinearRange

open GenericLinearRange (make)

variable {V : Type}

/-! ### A part of a list of ranges -/

section SubRange

variable (fromOffset toOffset : ℤ)

def truncatedStart (range : GenericLinearRange V) : ℤ := max fromOffset range.pathBegin

def truncatedEnd (range : GenericLinearRange V) : ℤ := min toOffset range.pathEnd

/-- A range that is outside is left out, and one that is a point at an end that is not included. -/
def LeftOut (includeExactStart includeExactEnd : Bool) (range : GenericLinearRange V) : Prop :=
  truncatedEnd toOffset range < truncatedStart fromOffset range ∨
    truncatedStart fromOffset range = truncatedEnd toOffset range ∧
      (truncatedEnd toOffset range = fromOffset ∧ includeExactStart = false ∨
        truncatedStart fromOffset range = toOffset ∧ includeExactEnd = false)

instance (includeExactStart includeExactEnd : Bool) (range : GenericLinearRange V) :
    Decidable (LeftOut fromOffset toOffset includeExactStart includeExactEnd range) :=
  inferInstanceAs (Decidable (_ ∨ _))

def truncate (resetOffsets : Bool) (range : GenericLinearRange V) : Option (GenericLinearRange V) :=
  let newPathBegin := if resetOffsets then truncatedStart fromOffset range - fromOffset
    else truncatedStart fromOffset range
  let newPathEnd :=
    if resetOffsets then truncatedEnd toOffset range - fromOffset else truncatedEnd toOffset range
  make range.value (range.objectBegin + (truncatedStart fromOffset range - range.pathBegin))
    (range.objectEnd - (range.pathEnd - truncatedEnd toOffset range)) newPathBegin newPathEnd
    range.objectLength

def subRange (ranges : List (GenericLinearRange V))
    (resetOffsets includeExactStart includeExactEnd : Bool) : Option (List (GenericLinearRange V)) :=
  (ranges.filter fun range =>
    ¬ LeftOut fromOffset toOffset includeExactStart includeExactEnd range).mapM
      (truncate fromOffset toOffset resetOffsets)

end SubRange

/-! ### What the ranges tell -/

/-- The object `value` is at the path offset, at `objectOffset` from its start. -/
def Describes (ranges : List (GenericLinearRange V)) (pathOffset : ℤ) (value : V) (objectOffset : ℤ) :
    Prop :=
  ∃ r ∈ ranges, r.containsPathOffset pathOffset ∧ r.value = value ∧
    r.offsetFromTrainPath pathOffset = objectOffset

/-- The ranges follow each other from one path offset to another. -/
def Covers (ranges : List (GenericLinearRange V)) (a b : ℤ) : Prop :=
  Tiles (·.pathBegin) (·.pathEnd) a ranges b

theorem Covers.le : ∀ {ranges : List (GenericLinearRange V)} {a b : ℤ}, Covers ranges a b → a ≤ b
  | [], _, _, h => le_of_eq h
  | r :: ranges, a, b, ⟨ha, h⟩ => by
    have hrest : Covers ranges r.pathEnd b := h
    have hle := hrest.le
    have hlength := r.length_nonneg
    have ha : r.pathBegin = a := ha
    rw [GenericLinearRange.pathEnd] at hle
    omega

/-- Every path offset between the two is on some range. -/
theorem Covers.describes : ∀ {ranges : List (GenericLinearRange V)} {a b p : ℤ}, Covers ranges a b →
    ranges ≠ [] → a ≤ p → p ≤ b → ∃ value objectOffset, Describes ranges p value objectOffset
  | [r], a, b, p, ⟨ha, hb⟩, _, hap, hpb =>
    ⟨r.value, _, r, mem_singleton_self r, ⟨ha.le.trans hap, hpb.trans hb.symm.le⟩, rfl, rfl⟩
  | r :: r' :: ranges, a, b, p, ⟨ha, h⟩, _, hap, hpb => by
    rcases le_or_gt p r.pathEnd with hp | hp
    · exact ⟨r.value, _, r, mem_cons_self, ⟨ha.le.trans hap, hp⟩, rfl, rfl⟩
    · have hrest : Covers (r' :: ranges) r.pathEnd b := h
      obtain ⟨value, objectOffset, r'', hr'', hat⟩ := hrest.describes (cons_ne_nil _ _) hp.le hpb
      exact ⟨value, objectOffset, r'', mem_cons_of_mem _ hr'', hat⟩

variable {range : GenericLinearRange V}

section SubRangeSpec

variable {fromOffset toOffset : ℤ} {includeExactStart includeExactEnd : Bool}

/-- The part of a range between the two points, from the first on. -/
structure IsPart (fromOffset toOffset : ℤ) (range part : GenericLinearRange V) : Prop where
  value : part.value = range.value
  pathBegin : part.pathBegin = truncatedStart fromOffset range - fromOffset
  pathEnd : part.pathEnd = truncatedEnd toOffset range - fromOffset
  objectEnd_le : part.objectEnd ≤ range.objectEnd
  offset : ∀ p, part.offsetFromTrainPath p = range.offsetFromTrainPath (fromOffset + p)

theorem truncate_isPart (h : truncatedStart fromOffset range ≤ truncatedEnd toOffset range) :
    ∃ part, truncate fromOffset toOffset true range = some part ∧
      IsPart fromOffset toOffset range part := by
  have hend := range.objectEnd_le
  have hbegin := range.objectBegin_nonneg
  simp only [truncate, truncatedStart, truncatedEnd, make, GenericLinearRange.objectEnd,
    GenericLinearRange.pathEnd, if_true] at h ⊢
  rw [dif_pos (by omega)]
  refine ⟨_, rfl, rfl, rfl, ?_, ?_, fun p => ?_⟩
  · simp only [GenericLinearRange.pathEnd, truncatedEnd]
    omega
  · simp only [GenericLinearRange.objectEnd]
    omega
  · simp only [GenericLinearRange.offsetFromTrainPath, GenericLinearRange.objectAbsolutePathStart]
    omega

theorem le_of_not_leftOut (h : ¬ LeftOut fromOffset toOffset includeExactStart includeExactEnd range) :
    truncatedStart fromOffset range ≤ truncatedEnd toOffset range :=
  not_lt.mp fun hlt => h (.inl hlt)

/-- The nearest point between the two. -/
def clamp (fromOffset toOffset x : ℤ) : ℤ := min toOffset (max fromOffset x)

/-- The part of ranges that follow each other. -/
theorem subRange_covers (hft : fromOffset ≤ toOffset) :
    ∀ {ranges : List (GenericLinearRange V)} {a b : ℤ}, Covers ranges a b →
    ∃ parts, subRange fromOffset toOffset ranges true includeExactStart includeExactEnd = some parts ∧
      Covers parts (clamp fromOffset toOffset a - fromOffset) (clamp fromOffset toOffset b - fromOffset)
  | [], a, b, h => ⟨[], rfl, by rw [show a = b from h]; rfl⟩
  | r :: ranges, a, b, ⟨ha, h⟩ => by
    obtain ⟨parts, hparts, hcovers⟩ := subRange_covers hft h
    have hlength := r.length_nonneg
    have hend : r.pathEnd = r.pathBegin + r.length := rfl
    have ha : r.pathBegin = a := ha
    by_cases hout : LeftOut fromOffset toOffset includeExactStart includeExactEnd r
    · -- both ends of the range are nearest to the same point
      refine ⟨parts, ?_, ?_⟩
      · rw [subRange, filter_cons_of_neg (by simpa using hout)]
        exact hparts
      · have hpoint : clamp fromOffset toOffset a = clamp fromOffset toOffset r.pathEnd := by
          simp only [LeftOut, truncatedStart, truncatedEnd] at hout
          simp only [clamp]
          omega
        rwa [hpoint]
    · have hle := le_of_not_leftOut hout
      obtain ⟨part, hpart, hisPart⟩ := truncate_isPart hle
      refine ⟨part :: parts, ?_, ?_, ?_⟩
      · rw [subRange, filter_cons_of_pos (by simpa using hout), mapM_cons, hpart]
        rw [subRange] at hparts
        rw [hparts]
        rfl
      · simp only [hisPart.pathBegin, truncatedStart, truncatedEnd, clamp] at hle ⊢
        omega
      · have hstop : part.pathEnd = clamp fromOffset toOffset r.pathEnd - fromOffset := by
          simp only [hisPart.pathEnd, truncatedStart, truncatedEnd, clamp] at hle ⊢
          omega
        change Tiles _ _ part.pathEnd parts _
        rw [hstop]
        exact hcovers

variable {ranges parts : List (GenericLinearRange V)}
  (hparts : subRange fromOffset toOffset ranges true includeExactStart includeExactEnd = some parts)

include hparts in
theorem isPart_of_subRange {part : GenericLinearRange V} (hpart : part ∈ parts) :
    ∃ r ∈ ranges, IsPart fromOffset toOffset r part := by
  obtain ⟨r, hr, htruncate⟩ := (Partial.mem_mapM_iff hparts).mp hpart
  obtain ⟨hr, hkept⟩ := mem_filter.mp hr
  have hle := le_of_not_leftOut (of_decide_eq_true hkept)
  obtain ⟨part', hpart', hisPart⟩ := truncate_isPart hle
  cases htruncate.symm.trans hpart'
  exact ⟨r, hr, hisPart⟩

include hparts in
/-- What the part tells is what the ranges tell. Between its ends it tells all of it, and at an end too when
    the end is included. -/
theorem subRange_describes {p : ℤ} {value : V} {objectOffset : ℤ} :
    (Describes parts p value objectOffset → Describes ranges (fromOffset + p) value objectOffset) ∧
      ((0 < p ∨ 0 = p ∧ includeExactStart = true) →
        (p < toOffset - fromOffset ∨ p = toOffset - fromOffset ∧ includeExactEnd = true) →
        Describes ranges (fromOffset + p) value objectOffset → Describes parts p value objectOffset) := by
  constructor
  · rintro ⟨part, hpart, ⟨hbegin, hend⟩, rfl, rfl⟩
    obtain ⟨r, hr, hisPart⟩ := isPart_of_subRange hparts hpart
    rw [hisPart.pathBegin, truncatedStart] at hbegin
    rw [hisPart.pathEnd, truncatedEnd] at hend
    exact ⟨r, hr, ⟨by omega, by omega⟩, hisPart.value.symm, (hisPart.offset p).symm⟩
  · rintro hstart hstop ⟨r, hr, ⟨hbegin, hend⟩, rfl, rfl⟩
    have hkept : ¬ LeftOut fromOffset toOffset includeExactStart includeExactEnd r := by
      simp only [LeftOut, truncatedStart, truncatedEnd]
      rintro (hlt | ⟨heq, ⟨hfrom, hflag⟩ | ⟨hto, hflag⟩⟩)
      · omega
      · rcases hstart with hpos | ⟨-, hincluded⟩
        · omega
        · exact nomatch hflag.symm.trans hincluded
      · rcases hstop with hbefore | ⟨-, hincluded⟩
        · omega
        · exact nomatch hflag.symm.trans hincluded
    obtain ⟨part, hpart, hisPart⟩ := truncate_isPart (le_of_not_leftOut hkept)
    have hmem := (Partial.mem_mapM_iff hparts).mpr
      ⟨r, mem_filter.mpr ⟨hr, decide_eq_true hkept⟩, hpart⟩
    refine ⟨part, hmem, ⟨?_, ?_⟩, hisPart.value, hisPart.offset p⟩
    · rw [hisPart.pathBegin, truncatedStart]
      omega
    · rw [hisPart.pathEnd, truncatedEnd]
      omega

end SubRangeSpec

end Osrd.Path
