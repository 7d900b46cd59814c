import Osrd.EnvelopeSim.Mrsp
import Mathlib.Data.List.Perm.Basic

/-! The list of active parts of the sweep.

    The parts in the list are those that have begun and not ended, counted by equality, since an ended part
    is removed by equality (`Sweep`). Between two changes they are the parts that cover the position, so that
    the first one with the lowest speed (`FirstMin`) has the speed of the profile there. -/

namespace Osrd.EnvelopeSim.Mrsp

open MRSPEnvelopeBuilder List

section Sweep

variable {K Attrs Ref : Type} [Field K] [LinearOrder K] {heap : Ref → EnvelopePart K Attrs}
  {parts : List Ref}

/-! ### Parts and their changes -/

variable (part : EnvelopePart K Attrs)

/-- The speed of a flat part. -/
def speedOf : K := part.minSpeed.getD 0

/-- All the parts have a constant speed and a length. -/
def AllFlat (heap : Ref → EnvelopePart K Attrs) (parts : List Ref) : Prop :=
  ∀ r ∈ parts, (∃ v, (heap r).HasSpeed v) ∧ (heap r).beginPos < (heap r).endPos

theorem minSpeed_eq : part.minSpeed = some (speedOf part) := by
  obtain ⟨speed, hspeed, -⟩ := part.exists_minSpeed
  rw [speedOf, hspeed, Option.getD_some]

theorem speedOf_mem : speedOf part ∈ part.speeds := by
  obtain ⟨speed, hspeed, hmem⟩ := part.exists_minSpeed
  rwa [speedOf, hspeed, Option.getD_some]

variable {r : Ref}

theorem AllFlat.hasSpeed (h : AllFlat heap parts) (hr : r ∈ parts) {v : K} :
    (heap r).HasSpeed v ↔ v = speedOf (heap r) := by
  constructor
  · intro hv
    exact (hv _ (speedOf_mem (heap r))).symm
  · rintro rfl
    obtain ⟨⟨w, hw⟩, -⟩ := h r hr
    rwa [hw _ (speedOf_mem (heap r))]

def Covers (x : K) : Prop := part.beginPos ≤ x ∧ x ≤ part.endPos

/-- A bound of one of the parts. -/
def Bound (heap : Ref → EnvelopePart K Attrs) (parts : List Ref) (x : K) : Prop :=
  ∃ r ∈ parts, x = (heap r).beginPos ∨ x = (heap r).endPos

/-- The speeds of the parts that cover a position. -/
def speedsAt (heap : Ref → EnvelopePart K Attrs) (parts : List Ref) (x : K) : Set K :=
  {v | ∃ r ∈ parts, Covers (heap r) x ∧ (heap r).HasSpeed v}

/-- The position of a change of a part. -/
def positionOf : EnvelopeChangeType → K
  | .BEGIN => part.beginPos
  | .END => part.endPos

/-- The change is one of the two of a part. -/
def Genuine (heap : Ref → EnvelopePart K Attrs) (parts : List Ref) (c : EnvelopeChange K Ref) : Prop :=
  c.part ∈ parts ∧ c.position = positionOf (heap c.part) c.type

theorem Genuine.bound {c : EnvelopeChange K Ref} (h : Genuine heap parts c) :
    Bound heap parts c.position := by
  refine ⟨c.part, h.1, ?_⟩
  rw [h.2]
  cases c.type with
  | BEGIN => exact .inl rfl
  | END => exact .inr rfl

/-- The parts of the changes of a type. -/
def values (heap : Ref → EnvelopePart K Attrs) (type : EnvelopeChangeType)
    (changes : List (EnvelopeChange K Ref)) : List (EnvelopePart K Attrs) :=
  (changes.filter fun c => c.type = type).map fun c => heap c.part

variable {part : EnvelopePart K Attrs}

theorem mem_values {type : EnvelopeChangeType} {changes : List (EnvelopeChange K Ref)} :
    part ∈ values heap type changes ↔ ∃ c ∈ changes, c.type = type ∧ heap c.part = part := by
  simp [values, and_assoc]

theorem values_cons (type : EnvelopeChangeType) (c : EnvelopeChange K Ref)
    (changes : List (EnvelopeChange K Ref)) : values heap type (c :: changes) =
      if c.type = type then heap c.part :: values heap type changes else values heap type changes := by
  by_cases h : c.type = type <;> simp [values, h]

/-- One of the parts that have the value is taken out. -/
theorem map_eraseP_perm [DecidableEq Attrs] : ∀ {active : List Ref}, part ∈ active.map heap →
    (active.map heap).Perm (part :: (active.eraseP fun r => heap r = part).map heap)
  | r :: active, h => by
    by_cases hr : heap r = part
    · rw [eraseP_cons_of_pos (by simpa using hr), map_cons, hr]
    · rw [eraseP_cons_of_neg (by simpa using hr), map_cons, map_cons]
      have hmem : part ∈ active.map heap := (mem_cons.mp h).resolve_left (Ne.symm hr)
      exact ((map_eraseP_perm hmem).cons _).trans (.swap ..)

/-! ### The parts in the list -/

/-- The position is `p`: the parts in the list, with those that begin later, are those that end later. -/
structure Sweep (heap : Ref → EnvelopePart K Attrs) (parts : List Ref) (p : K) (active : List Ref)
    (rest : List (EnvelopeChange K Ref)) : Prop where
  sorted : rest.Pairwise EnvelopeChange.le
  genuine : ∀ c ∈ rest, Genuine heap parts c
  balance : (active.map heap ++ values heap .BEGIN rest).Perm (values heap .END rest)
  begun : ∀ r ∈ active, r ∈ parts ∧ (heap r).beginPos ≤ p
  gone : ∀ r ∈ parts, heap r ∈ values heap .END rest ∨ (heap r).endPos ≤ p
  le : ∀ c ∈ rest, p ≤ c.position
  bound : Bound heap parts p
  paired : ∀ c ∈ rest, c.type = .BEGIN → ∃ c' ∈ rest, c'.type = .END ∧ c'.part = c.part

/-- Each part of the list has its own end among the changes. -/
def Pending (active : List Ref) (rest : List (EnvelopeChange K Ref)) : Prop :=
  ∀ r ∈ active, ∃ c ∈ rest, c.type = .END ∧ c.part = r

variable (hflat : AllFlat heap parts)

namespace Sweep

variable {p : K} {active : List Ref} {rest : List (EnvelopeChange K Ref)}

theorem exists_end (h : Sweep heap parts p active rest) (hr : r ∈ active) :
    ∃ c ∈ rest, c.type = .END ∧ heap c.part = heap r ∧ c.position = (heap r).endPos := by
  have hmem : heap r ∈ values heap .END rest := h.balance.subset (mem_append_left _ (mem_map_of_mem hr))
  obtain ⟨c, hc, htype, hpart⟩ := mem_values.mp hmem
  refine ⟨c, hc, htype, hpart, ?_⟩
  rw [(h.genuine c hc).2, htype, hpart, positionOf]

/-- Between the changes, the parts in the list are those that cover the position. -/
theorem covers_iff (h : Sweep heap parts p active rest) {x : K} (hx : p < x)
    (hrest : ∀ c ∈ rest, x < c.position) :
    part ∈ active.map heap ↔ ∃ r ∈ parts, heap r = part ∧ Covers part x := by
  constructor
  · intro hmem
    obtain ⟨r, hr, rfl⟩ := mem_map.mp hmem
    obtain ⟨c, hc, -, -, hposition⟩ := h.exists_end hr
    refine ⟨r, (h.begun r hr).1, rfl, ((h.begun r hr).2.trans_lt hx).le, ?_⟩
    rw [← hposition]
    exact (hrest c hc).le
  · rintro ⟨r, hr, rfl, hbegin, hend⟩
    have hmem : heap r ∈ values heap .END rest :=
      (h.gone r hr).resolve_right fun hle => absurd (hend.trans hle) hx.not_ge
    rcases mem_append.mp (h.balance.symm.subset hmem) with hmem | hmem
    · exact hmem
    · -- a part that begins later does not cover the position
      obtain ⟨c, hc, htype, hpart⟩ := mem_values.mp hmem
      have hposition : c.position = (heap r).beginPos := by
        rw [(h.genuine c hc).2, htype, hpart, positionOf]
      exact absurd (hposition ▸ hrest c hc) hbegin.not_gt

/-- The lowest speed in the list is the lowest of the parts that cover a position between the changes. -/
theorem isLeast (h : Sweep heap parts p active rest) (hflat : AllFlat heap parts) {x : K} (hx : p < x)
    (hrest : ∀ c ∈ rest, x < c.position) {m : Ref} (hm : m ∈ active)
    (hmin : ∀ r ∈ active, speedOf (heap m) ≤ speedOf (heap r)) :
    IsLeast (speedsAt heap parts x) (speedOf (heap m)) := by
  constructor
  · obtain ⟨r, hr, heq, hcovers⟩ := (h.covers_iff hx hrest).mp (mem_map_of_mem hm)
    rw [← heq] at hcovers ⊢
    exact ⟨r, hr, hcovers, (hflat.hasSpeed hr).mpr rfl⟩
  · rintro v ⟨r, hr, hcovers, hv⟩
    obtain ⟨a, ha, heq⟩ := mem_map.mp ((h.covers_iff hx hrest).mpr ⟨r, hr, rfl, hcovers⟩)
    rw [(hflat.hasSpeed hr).mp hv, ← heq]
    exact hmin a ha

theorem advance (h : Sweep heap parts p active rest) {q : K} (hq : Bound heap parts q)
    (hle : ∀ c ∈ rest, q ≤ c.position) (hpq : p ≤ q) : Sweep heap parts q active rest where
  sorted := h.sorted
  genuine := h.genuine
  balance := h.balance
  begun r hr := ⟨(h.begun r hr).1, (h.begun r hr).2.trans hpq⟩
  gone r hr := (h.gone r hr).imp_right fun hle => hle.trans hpq
  le := hle
  bound := hq
  paired := h.paired

variable {c : EnvelopeChange K Ref}

variable (h : Sweep heap parts p active (c :: rest))

include h in
theorem position_le : ∀ c' ∈ rest, c.position ≤ c'.position :=
  fun _ hc' => (rel_of_pairwise_cons h.sorted hc').elim le_of_lt fun heq => heq.1.le

include h in
theorem head : Sweep heap parts c.position active (c :: rest) :=
  h.advance (h.genuine c mem_cons_self).bound (forall_mem_cons.mpr ⟨le_rfl, h.position_le⟩)
    (h.le c mem_cons_self)

include h in
theorem start (htype : c.type = .BEGIN) : Sweep heap parts c.position (active ++ [c.part]) rest where
  sorted := (pairwise_cons.mp h.sorted).2
  genuine c' hc' := h.genuine c' (mem_cons_of_mem _ hc')
  balance := by
    have hbalance := h.balance
    rw [values_cons, values_cons, if_pos htype, if_neg (by rw [htype]; decide)] at hbalance
    simpa using hbalance
  begun := by
    obtain ⟨hmem, hposition⟩ := h.genuine c mem_cons_self
    rw [htype] at hposition
    exact forall_mem_append.mpr ⟨h.head.begun, forall_mem_singleton.mpr ⟨hmem, hposition.ge⟩⟩
  gone r hr := by
    have hgone := h.head.gone r hr
    rwa [values_cons, if_neg (by rw [htype]; decide)] at hgone
  le := h.position_le
  bound := h.head.bound
  paired c' hc' htype' := by
    obtain ⟨e, he, hend, hpart⟩ := h.paired c' (mem_cons_of_mem _ hc') htype'
    rcases mem_cons.mp he with rfl | he
    · rw [htype] at hend
      cases hend
    · exact ⟨e, he, hend, hpart⟩

include hflat h in
/-- A part that begins after a position does not end before it. -/
theorem begin_not_before
    (htype : c.type = .END) {c' : EnvelopeChange K Ref} (hc' : c' ∈ rest) (htype' : c'.type = .BEGIN) :
    heap c'.part ≠ heap c.part := by
  intro heq
  obtain ⟨hmem, hposition⟩ := h.genuine c mem_cons_self
  have hposition' := (h.genuine c' (mem_cons_of_mem _ hc')).2
  rw [htype] at hposition
  rw [htype', heq] at hposition'
  have hlt := (hflat _ hmem).2
  have hle := h.position_le c' hc'
  rw [hposition, hposition'] at hle
  exact absurd hlt hle.not_gt

include hflat h in
theorem mem_of_end (htype : c.type = .END) : heap c.part ∈ active.map heap := by
  have hmem : heap c.part ∈ values heap .END (c :: rest) := mem_values.mpr ⟨c, mem_cons_self, htype, rfl⟩
  rcases mem_append.mp (h.balance.symm.subset hmem) with hmem | hmem
  · exact hmem
  · obtain ⟨c', hc', htype', hpart⟩ := mem_values.mp hmem
    rcases mem_cons.mp hc' with rfl | hc'
    · rw [htype] at htype'
      cases htype'
    · exact absurd hpart (h.begin_not_before hflat htype hc' htype')

include hflat h in
/-- A part goes out, with the place in the list of one that equals it. -/
theorem stop [DecidableEq Attrs] (htype : c.type = .END) :
    Sweep heap parts c.position (active.eraseP fun r => heap r = heap c.part) rest where
  sorted := (pairwise_cons.mp h.sorted).2
  genuine c' hc' := h.genuine c' (mem_cons_of_mem _ hc')
  balance := by
    have hbalance := h.balance
    rw [values_cons, values_cons, if_pos htype, if_neg (by rw [htype]; decide)] at hbalance
    have herase := map_eraseP_perm (h.mem_of_end hflat htype)
    exact ((herase.append_right _).symm.trans hbalance).cons_inv
  begun r hr := h.head.begun r (mem_of_mem_eraseP hr)
  gone r hr := by
    have hgone := h.head.gone r hr
    rw [values_cons, if_pos htype, mem_cons] at hgone
    rcases hgone with (heq | hmem) | hle
    · obtain ⟨-, hposition⟩ := h.genuine c mem_cons_self
      rw [htype] at hposition
      rw [heq]
      exact .inr hposition.ge
    · exact .inl hmem
    · exact .inr hle
  le := h.position_le
  bound := h.head.bound
  paired c' hc' htype' := by
    obtain ⟨e, he, hend, hpart⟩ := h.paired c' (mem_cons_of_mem _ hc') htype'
    rcases mem_cons.mp he with rfl | he
    · exact absurd (congrArg heap hpart.symm) (h.begin_not_before hflat htype hc' htype')
    · exact ⟨e, he, hend, hpart⟩

end Sweep

/-! ### The first part with the lowest speed -/

def FirstMin (heap : Ref → EnvelopePart K Attrs) : List Ref → Ref → Prop
  | [], _ => False
  | a :: active, m => (m = a ∧ ∀ r ∈ active, speedOf (heap a) ≤ speedOf (heap r)) ∨
      (FirstMin heap active m ∧ speedOf (heap m) < speedOf (heap a))

namespace FirstMin

theorem mem : ∀ {active : List Ref} {m : Ref}, FirstMin heap active m → m ∈ active
  | _ :: _, _, .inl ⟨rfl, _⟩ => mem_cons_self
  | _ :: _, _, .inr ⟨h, _⟩ => mem_cons_of_mem _ h.mem

theorem le : ∀ {active : List Ref} {m : Ref}, FirstMin heap active m →
    ∀ r ∈ active, speedOf (heap m) ≤ speedOf (heap r)
  | a :: active, m, h, r, hr => by
    revert r
    rcases h with ⟨rfl, hle⟩ | ⟨h, hlt⟩
    · exact forall_mem_cons.mpr ⟨le_rfl, hle⟩
    · exact forall_mem_cons.mpr ⟨hlt.le, h.le⟩

theorem unique : ∀ {active : List Ref} {m m' : Ref}, FirstMin heap active m →
    FirstMin heap active m' → m = m'
  | a :: active, m, m', h, h' => by
    rcases h with ⟨rfl, hle⟩ | ⟨h, hlt⟩
    · rcases h' with ⟨rfl, -⟩ | ⟨h', hlt'⟩
      · rfl
      · exact absurd hlt' (hle m' h'.mem).not_gt
    · rcases h' with ⟨rfl, hle'⟩ | ⟨h', -⟩
      · exact absurd hlt (hle' m h.mem).not_gt
      · exact h.unique h'

theorem concat_of_lt : ∀ {active : List Ref},
    (∀ a ∈ active, speedOf (heap r) < speedOf (heap a)) → FirstMin heap (active ++ [r]) r
  | [], _ => .inl ⟨rfl, by simp⟩
  | a :: active, h => by
    rw [forall_mem_cons] at h
    exact .inr ⟨concat_of_lt h.2, h.1⟩

theorem concat_of_le : ∀ {active : List Ref} {m : Ref}, FirstMin heap active m →
    speedOf (heap m) ≤ speedOf (heap r) → FirstMin heap (active ++ [r]) m
  | a :: active, m, h, hle => by
    rcases h with ⟨rfl, hmin⟩ | ⟨h, hlt⟩
    · exact .inl ⟨rfl, forall_mem_append.mpr ⟨hmin, forall_mem_singleton.mpr hle⟩⟩
    · exact .inr ⟨h.concat_of_le hle, hlt⟩

/-- After new parts have come in: one of them, or the one it was. -/
theorem of_append {new : List Ref} : ∀ {active : List Ref} {m : Ref},
    FirstMin heap (active ++ new) m → m ∈ new ∨ FirstMin heap active m
  | [], _, h => .inl h.mem
  | a :: active, m, h => by
    rcases h with ⟨rfl, hmin⟩ | ⟨h, hlt⟩
    · exact .inr (.inl ⟨rfl, fun r hr => hmin r (mem_append_left _ hr)⟩)
    · exact (of_append h).imp_right fun h => .inr ⟨h, hlt⟩

theorem eraseP [DecidableEq Attrs] :
    ∀ {active : List Ref} {m : Ref}, FirstMin heap active m → heap m ≠ part →
    FirstMin heap (active.eraseP fun r => heap r = part) m
  | a :: active, m, h, hne => by
    by_cases ha : heap a = part
    · rw [eraseP_cons_of_pos (by simpa using ha)]
      rcases h with ⟨rfl, -⟩ | ⟨h, -⟩
      · exact absurd ha hne
      · exact h
    · rw [eraseP_cons_of_neg (by simpa using ha)]
      rcases h with ⟨rfl, hmin⟩ | ⟨h, hlt⟩
      · exact .inl ⟨rfl, fun r hr => hmin r (mem_of_mem_eraseP hr)⟩
      · exact .inr ⟨h.eraseP hne, hlt⟩

end FirstMin

theorem minimum_spec (heap : Ref → EnvelopePart K Attrs) (current : Option Ref) {active : List Ref}
    (hne : active ≠ []) : ∃ m, FirstMin heap active m ∧
      minimum heap (none, current) active = (some (speedOf (heap m)), some m) := by
  induction active using reverseRecOn with
  | nil => exact absurd rfl hne
  | append_singleton active r ih =>
    have hr := minSpeed_eq (heap r)
    by_cases hactive : active = []
    · subst hactive
      exact ⟨r, .inl ⟨rfl, by simp⟩, by simp [MRSPEnvelopeBuilder.minimum, below, hr]⟩
    · obtain ⟨m, hm, hmin⟩ := ih hactive
      rw [MRSPEnvelopeBuilder.minimum] at hmin
      rw [MRSPEnvelopeBuilder.minimum, foldl_append, hmin, foldl_cons, foldl_nil, hr]
      by_cases hlt : speedOf (heap r) < speedOf (heap m)
      · exact ⟨r, .concat_of_lt fun a ha => hlt.trans_le (hm.le a ha), by simp [below, hlt]⟩
      · exact ⟨m, hm.concat_of_le (not_lt.mp hlt), by simp [below, hlt]⟩

end Sweep

end Osrd.EnvelopeSim.Mrsp
