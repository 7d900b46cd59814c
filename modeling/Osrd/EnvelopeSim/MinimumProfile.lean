import Osrd.EnvelopeSim.Sweep
import Mathlib.Algebra.Order.Field.Rat

/-! The most restrictive speed profile of flat parts whose union is an interval: the sweep ends without a
    failed assertion, and what it builds is the minimum of the parts.

    The part that is being drawn is the first one of the list with the lowest speed, and has had the lowest
    speed since its start (`Open`); there is none only before the first turn and after the last (`Closed`).
    A turn of the loop handles either the begins of a position (`Turn.starts`) or its ends (`Turn.ends`). -/

namespace Osrd.EnvelopeSim.Mrsp

open EdgeWalk (IsWalk)
open MRSPEnvelopeBuilder List Option EnvelopePart EnvelopeChange

section Sweep

variable {K Attrs Ref : Type} [Field K] [LinearOrder K] {heap : Ref → EnvelopePart K Attrs}
  {parts : List Ref}

/-! ### The part that is drawn -/

/-- A part of the result. -/
structure Good (heap : Ref → EnvelopePart K Attrs) (parts : List Ref) (part : EnvelopePart K Attrs) :
    Prop where
  flat : ∃ speed, Flat part part.beginPos part.endPos speed
  bounds : Bound heap parts part.beginPos ∧ Bound heap parts part.endPos
  least : ∀ x v, part.beginPos < x → x < part.endPos → ¬ Bound heap parts x → part.HasSpeed v →
    IsLeast (speedsAt heap parts x) v

/-- The part `m` is drawn from `start` on. -/
structure Drawing (heap : Ref → EnvelopePart K Attrs) (parts : List Ref) (lo : K)
    (s : MRSPEnvelopeBuilder K Attrs Ref) (m : Ref) (start : K) : Prop where
  mem : m ∈ parts
  minPart : s.currentMinPart = some m
  minSpeed : s.currentMinSpeed = some (speedOf (heap m))
  builder : s.currentPartBuilder = some (.init start (speedOf (heap m)) (heap m).attrs)
  bound : Bound heap parts start
  walk : IsWalk beginPos endPos lo s.buildResult start
  lt_end : start < (heap m).endPos

/-- No part is drawn, and the result goes up to `p`. -/
structure Idle (lo p : K) (s : MRSPEnvelopeBuilder K Attrs Ref) : Prop where
  minPart : s.currentMinPart = none
  builder : s.currentPartBuilder = none
  walk : IsWalk beginPos endPos lo s.buildResult p

/-- The part has had the lowest speed from `start` to `stop`. -/
def LowestUntil (heap : Ref → EnvelopePart K Attrs) (parts : List Ref) (m : Ref) (start stop : K) :
    Prop :=
  ∀ x, start < x → x < stop → ¬ Bound heap parts x →
    IsLeast (speedsAt heap parts x) (speedOf (heap m))

variable {s : MRSPEnvelopeBuilder K Attrs Ref}

theorem flushResultPart_eq {b : EnvelopePartBuilder K Attrs}
    {part : EnvelopePart K Attrs} (hb : s.currentPartBuilder = some b) (hempty : b.isEmpty = false)
    (hbuild : b.build = some part) : s.flushResultPart =
      some { s with buildResult := s.buildResult ++ [part], currentPartBuilder := none } := by
  simp [flushResultPart, hb, hempty, hbuild]

section Close

variable {lo start p : K} {s : MRSPEnvelopeBuilder K Attrs Ref} {m : Ref}
  (h : Drawing heap parts lo s m start) (hgood : ∀ part ∈ s.buildResult, Good heap parts part)

include h hgood in
/-- The part can be closed further on, and what is added to the result is good. -/
theorem Drawing.exists_close [IsStrictOrderedRing K] (hlt : start < p) (hp : Bound heap parts p)
    (hleast : LowestUntil heap parts m start p) :
    ∃ b part, s.addStep p s.currentMinSpeed = some { s with currentPartBuilder := some b } ∧
      b.isEmpty = false ∧ b.build = some part ∧ (∀ q ∈ s.buildResult ++ [part], Good heap parts q) ∧
      IsWalk beginPos endPos lo (s.buildResult ++ [part]) p := by
  obtain ⟨b, part, hstep, hempty, hbuild, hpart⟩ :=
    exists_build_addStep (heap m).attrs hlt ((heap m).speeds_nonneg _ (speedOf_mem _))
  have hbegin := hpart.beginPos_eq
  have hend := hpart.endPos_eq
  refine ⟨b, part, ?_, hempty, hbuild,
    forall_mem_append.mpr ⟨hgood, forall_mem_singleton.mpr ⟨?_, ?_, ?_⟩⟩, ?_⟩
  · simp [addStep, h.builder, h.minSpeed, hstep]
  · exact ⟨_, by rwa [hbegin, hend]⟩
  · rw [hbegin, hend]
    exact ⟨h.bound, hp⟩
  · intro x v hx hx' hbound hv
    have hspeed : speedOf (heap m) = v := hv _ (by simp [hpart.speeds])
    rw [hbegin] at hx
    rw [hend] at hx'
    rw [← hspeed]
    exact hleast x hx hx' hbound
  · exact h.walk.append ⟨hbegin, hend⟩

include h hgood in
theorem Drawing.endMinPart [IsStrictOrderedRing K] (hlt : start < p) (hp : Bound heap parts p)
    (hleast : LowestUntil heap parts m start p) :
    ∃ s', s.endMinPart p = some s' ∧ s'.activeParts = s.activeParts ∧ Idle lo p s' ∧
      ∀ part ∈ s'.buildResult, Good heap parts part := by
  obtain ⟨b, part, hstep, hempty, hbuild, hparts, hwalk⟩ := h.exists_close hgood hlt hp hleast
  refine ⟨{ s with
    buildResult := s.buildResult ++ [part], currentPartBuilder := none, currentMinPart := none },
    ?_, rfl, ⟨rfl, rfl, hwalk⟩, hparts⟩
  rw [MRSPEnvelopeBuilder.endMinPart, hstep]
  simp [flushResultPart, hempty, hbuild]

/-! ### The turn of the minimum -/

section Update

variable [DecidableEq Ref]

/-- The part that is drawn stays the first with the lowest speed. -/
theorem Drawing.updateMinPart_same (h : Drawing heap parts lo s m start)
    (hm : FirstMin heap s.activeParts m) : s.updateMinPart heap p = some s := by
  have hne : s.activeParts ≠ [] := ne_nil_of_mem hm.mem
  obtain ⟨m', hm', hmin⟩ := minimum_spec heap s.currentMinPart hne
  cases hm'.unique hm
  have hempty : s.activeParts.isEmpty = false := by simpa using hne
  simp only [updateMinPart, hempty, hmin, Bool.false_eq_true, if_false]
  rw [if_pos h.minPart, ← h.minSpeed]

include h hgood in
/-- Another part takes its place. -/
theorem Drawing.updateMinPart_next [IsStrictOrderedRing K] {m' : Ref} (hm' : FirstMin heap s.activeParts m')
    (hne : m' ≠ m) (hmem : m' ∈ parts)
    (hlt : start < p) (hp : Bound heap parts p) (hleast : LowestUntil heap parts m start p)
    (hend : p < (heap m').endPos) :
    ∃ s', s.updateMinPart heap p = some s' ∧ s'.activeParts = s.activeParts ∧
      Drawing heap parts lo s' m' p ∧ ∀ part ∈ s'.buildResult, Good heap parts part := by
  obtain ⟨b, part, hstep, hempty, hbuild, hparts, hwalk⟩ := h.exists_close hgood hlt hp hleast
  have hactive : s.activeParts ≠ [] := ne_nil_of_mem hm'.mem
  obtain ⟨m'', hm'', hmin⟩ := minimum_spec heap s.currentMinPart hactive
  cases hm''.unique hm'
  have hisEmpty : s.activeParts.isEmpty = false := by simpa using hactive
  refine ⟨{ s with
    buildResult := s.buildResult ++ [part]
    currentMinPart := some m'
    currentMinSpeed := some (speedOf (heap m'))
    currentPartBuilder := some (.init p (speedOf (heap m')) (heap m').attrs) },
    ?_, rfl, ⟨hmem, rfl, rfl, rfl, hp, hwalk, hend⟩, hparts⟩
  have hdiff : ¬ s.currentMinPart = some m' := by
    rw [h.minPart, some.injEq]
    exact hne.symm
  have hsome : s.currentMinPart.isSome = true := by rw [h.minPart]; rfl
  simp only [updateMinPart, hisEmpty, hmin, hdiff, hsome, hstep, if_true, if_false,
    Bool.false_eq_true, bind_eq_bind, bind_some, newResultPart]
  rw [flushResultPart_eq rfl hempty hbuild]
  rfl

/-- A part is drawn after none was. -/
theorem Idle.updateMinPart (h : Idle lo p s)
    (hne : s.activeParts ≠ []) (hmem : ∀ r ∈ s.activeParts, r ∈ parts ∧ p < (heap r).endPos)
    (hp : Bound heap parts p) :
    ∃ s' m, s.updateMinPart heap p = some s' ∧ s'.activeParts = s.activeParts ∧
      FirstMin heap s.activeParts m ∧ Drawing heap parts lo s' m p ∧
      s'.buildResult = s.buildResult := by
  obtain ⟨m, hm, hmin⟩ := minimum_spec heap s.currentMinPart hne
  have hisEmpty : s.activeParts.isEmpty = false := by simpa using hne
  refine ⟨{ s with
    currentMinPart := some m
    currentMinSpeed := some (speedOf (heap m))
    currentPartBuilder := some (.init p (speedOf (heap m)) (heap m).attrs) }, m,
    ?_, rfl, hm, ⟨(hmem m hm.mem).1, rfl, rfl, rfl, hp, h.walk, (hmem m hm.mem).2⟩, rfl⟩
  rw [h.minPart] at hmin
  simp [MRSPEnvelopeBuilder.updateMinPart, hisEmpty, hmin, h.minPart, h.builder, newResultPart,
    flushResultPart]

end Update

end Close

/-! ### Turns of the loop -/

/-- The state at the head of the loop, while a part is drawn. -/
structure Open (heap : Ref → EnvelopePart K Attrs) (parts : List Ref) (lo p : K)
    (s : MRSPEnvelopeBuilder K Attrs Ref) (rest : List (EnvelopeChange K Ref)) (m : Ref) (start : K) :
    Prop where
  drawing : Drawing heap parts lo s m start
  first : FirstMin heap s.activeParts m
  start_le : start ≤ p
  before : ∀ c ∈ rest, c.type = .BEGIN → start < c.position
  least : ∀ stop, (∀ c ∈ rest, stop ≤ c.position) → LowestUntil heap parts m start stop

/-- The state at the head of the loop before the first change and after the last. -/
structure Closed (lo p : K) (s : MRSPEnvelopeBuilder K Attrs Ref)
    (rest : List (EnvelopeChange K Ref)) : Prop where
  idle : Idle lo p s
  empty : s.activeParts = []
  head : ∀ c ∈ rest.head?, c.position = p

structure Turn (heap : Ref → EnvelopePart K Attrs) (parts : List Ref) (lo p : K)
    (s : MRSPEnvelopeBuilder K Attrs Ref) (rest : List (EnvelopeChange K Ref)) : Prop where
  sweep : Sweep heap parts p s.activeParts rest
  pending : Pending s.activeParts rest
  good : ∀ part ∈ s.buildResult, Good heap parts part
  current : (∃ m start, Open heap parts lo p s rest m start) ∨ Closed lo p s rest

/-- The changes at `p` have been handled. -/
structure Ready (heap : Ref → EnvelopePart K Attrs) (parts : List Ref) (p : K)
    (s : MRSPEnvelopeBuilder K Attrs Ref) (rest : List (EnvelopeChange K Ref)) : Prop where
  sweep : Sweep heap parts p s.activeParts rest
  pending : Pending s.activeParts rest
  good : ∀ part ∈ s.buildResult, Good heap parts part
  later : ∀ c ∈ rest, c.type = .BEGIN → p < c.position

/-- The begins at `p` have been handled: `new` came into the list. -/
structure Started (heap : Ref → EnvelopePart K Attrs) (parts : List Ref) (p : K) (active new : List Ref)
    (rest : List (EnvelopeChange K Ref)) : Prop where
  sweep : Sweep heap parts p (active ++ new) rest
  pending : Pending (active ++ new) rest
  begin_eq : ∀ r ∈ new, (heap r).beginPos = p
  later : ∀ c ∈ rest, c.type = .BEGIN → p < c.position

variable {c : EnvelopeChange K Ref}

/-- After a change that is not a begin at `p`, there is none. -/
theorem Sweep.later {p : K} {active : List Ref} {rest : List (EnvelopeChange K Ref)}
    (h : Sweep heap parts p active (c :: rest)) (hc : c.type ≠ .BEGIN ∨ p < c.position) :
    ∀ c' ∈ c :: rest, c'.type = .BEGIN → p < c'.position := by
  intro c' hc' htype'
  rcases mem_cons.mp hc' with rfl | hc'
  · exact hc.resolve_left (not_not.mpr htype')
  · rcases hc with htype | hlt
    · have hle := h.le c mem_cons_self
      rcases rel_of_pairwise_cons h.sorted hc' with hlt | ⟨-, hpriority⟩
      · exact hle.trans_lt hlt
      · -- an end does not come before a begin of its position
        cases htype'' : c.type with
        | BEGIN => exact absurd htype'' htype
        | END =>
          rw [htype', htype''] at hpriority
          exact absurd hpriority (by decide)
    · exact hlt.trans_le (h.position_le c' hc')

omit [Field K] [LinearOrder K] in
theorem Pending.start {active : List Ref} {rest : List (EnvelopeChange K Ref)}
    (h : Pending active (c :: rest)) (htype : c.type = .BEGIN)
    (hc : ∃ c' ∈ c :: rest, c'.type = .END ∧ c'.part = c.part) : Pending (active ++ [c.part]) rest := by
  have htail : ∀ r, (∃ c' ∈ c :: rest, c'.type = .END ∧ c'.part = r) →
      ∃ c' ∈ rest, c'.type = .END ∧ c'.part = r := by
    simp [htype]
  exact forall_mem_append.mpr ⟨fun r hr => htail r (h r hr), forall_mem_singleton.mpr (htail _ hc)⟩

theorem processCurveStarts_spec {p : K} : ∀ {rest : List (EnvelopeChange K Ref)}
    {s : MRSPEnvelopeBuilder K Attrs Ref}, Sweep heap parts p s.activeParts rest →
    Pending s.activeParts rest → ∃ new rest', Started heap parts p s.activeParts new rest' ∧
      processCurveStarts p s rest = ({ s with activeParts := s.activeParts ++ new }, rest') ∧
      rest'.length + new.length = rest.length ∧
      ∀ c ∈ rest.head?, c.type = .BEGIN → c.position = p → new ≠ []
  | [], s, hsweep, hpending => by
    refine ⟨[], [], ⟨?_, ?_, by simp, by simp⟩, ?_, rfl, by simp⟩
    · simpa using hsweep
    · simpa using hpending
    · simp [processCurveStarts]
  | c :: rest, s, hsweep, hpending => by
    rw [processCurveStarts]
    by_cases hstop : c.type ≠ .BEGIN ∨ p < c.position
    · rw [if_pos hstop]
      refine ⟨[], c :: rest, ⟨?_, ?_, by simp, hsweep.later hstop⟩, ?_, rfl, ?_⟩
      · simpa using hsweep
      · simpa using hpending
      · simp
      · intro c' hc' htype hposition
        cases hc'
        rcases hstop with hne | hlt
        · exact absurd htype hne
        · exact absurd hposition hlt.ne'
    · rw [if_neg hstop]
      rw [not_or, not_not, not_lt] at hstop
      have hposition : c.position = p := le_antisymm hstop.2 (hsweep.le c mem_cons_self)
      have hstart := hsweep.start hstop.1
      rw [hposition] at hstart
      obtain ⟨new, rest', hstarted, heq, hlength, -⟩ :=
        @processCurveStarts_spec p rest { s with activeParts := s.activeParts ++ [c.part] } hstart
          (hpending.start hstop.1 (hsweep.paired c mem_cons_self hstop.1))
      have happend : s.activeParts ++ [c.part] ++ new = s.activeParts ++ c.part :: new := by simp
      have hbegin : (heap c.part).beginPos = p := by
        rw [← hposition, (hsweep.genuine c mem_cons_self).2, hstop.1, positionOf]
      refine ⟨c.part :: new, rest', ⟨?_, ?_, ?_, hstarted.later⟩, ?_, ?_, ?_⟩
      · exact happend ▸ hstarted.sweep
      · exact happend ▸ hstarted.pending
      · exact forall_mem_cons.mpr ⟨hbegin, hstarted.begin_eq⟩
      · rw [heq, happend]
      · rw [length_cons, length_cons]
        omega
      · intro c' _ _ _
        exact cons_ne_nil c.part new

/-- Within the ends at `p`: a part that also ends there may have lost its place in the list. -/
structure Ending (heap : Ref → EnvelopePart K Attrs) (parts : List Ref) (lo p : K)
    (s : MRSPEnvelopeBuilder K Attrs Ref) (rest : List (EnvelopeChange K Ref)) : Prop where
  sweep : Sweep heap parts p s.activeParts rest
  pending : ∀ r ∈ s.activeParts, p < (heap r).endPos → ∃ c ∈ rest, c.type = .END ∧ c.part = r
  later : ∀ c ∈ rest, c.type = .BEGIN → p < c.position
  good : ∀ part ∈ s.buildResult, Good heap parts part
  current : (∃ m start, Drawing heap parts lo s m start ∧ start ≤ p ∧
      LowestUntil heap parts m start p ∧ (∃ c ∈ rest, c.type = .END ∧ c.part = m) ∧
      (p < (heap m).endPos → FirstMin heap s.activeParts m)) ∨ Idle lo p s

namespace Ending

variable [IsStrictOrderedRing K] [DecidableEq Ref] [DecidableEq Attrs] {lo p : K}
  {s : MRSPEnvelopeBuilder K Attrs Ref} {c : EnvelopeChange K Ref} {rest : List (EnvelopeChange K Ref)}

/-- The state after the list has lost a part that ends. -/
theorem step (h : Ending heap parts lo p s (c :: rest)) (hflat : AllFlat heap parts)
    (htype : c.type = .END) (hposition : c.position = p) : ∃ s',
      (let s := { s with activeParts := s.activeParts.eraseP fun r => heap r = heap c.part }
        if s.currentMinPart = some c.part then s.endMinPart p else some s) = some s' ∧
      Ending heap parts lo p s' rest := by
  have hend : (heap c.part).endPos = p := by
    rw [← hposition, (h.sweep.genuine c mem_cons_self).2, htype, positionOf]
  have hsweep := h.sweep.stop hflat htype
  rw [hposition] at hsweep
  have htail : ∀ r, r ≠ c.part → (∃ c' ∈ c :: rest, c'.type = .END ∧ c'.part = r) →
      ∃ c' ∈ rest, c'.type = .END ∧ c'.part = r := by
    rintro r hr ⟨c', hc', htype', rfl⟩
    exact ⟨c', mem_of_ne_of_mem (fun heq => hr (heq ▸ rfl)) hc', htype', rfl⟩
  have hpending : ∀ r ∈ s.activeParts.eraseP fun r => heap r = heap c.part, p < (heap r).endPos →
      ∃ c' ∈ rest, c'.type = .END ∧ c'.part = r := by
    intro r hr hlt
    refine htail r ?_ (h.pending r (mem_of_mem_eraseP hr) hlt)
    rintro rfl
    exact absurd hend hlt.ne'
  have hlater : ∀ c' ∈ rest, c'.type = .BEGIN → p < c'.position := fun c' hc' =>
    h.later c' (mem_cons_of_mem _ hc')
  rcases h.current with ⟨m, start, hdrawing, hstart, hleast, hm, hfirst⟩ | hidle
  · have hdrawing' : Drawing heap parts lo
        { s with activeParts := s.activeParts.eraseP fun r => heap r = heap c.part } m start :=
          { hdrawing with }
    by_cases hmc : m = c.part
    · -- the part that is drawn ends here
      subst hmc
      have hlt : start < p := hend ▸ hdrawing.lt_end
      obtain ⟨s', hs', hactive, hidle, hgood⟩ := hdrawing'.endMinPart h.good hlt h.sweep.bound hleast
      refine ⟨s', (if_pos hdrawing.minPart).trans hs', ?_⟩
      exact ⟨hactive ▸ hsweep, hactive ▸ hpending, hlater, hgood, .inr hidle⟩
    · refine ⟨_, if_neg ?_, hsweep, hpending, hlater, h.good,
        .inl ⟨m, start, hdrawing', hstart, hleast, htail m hmc hm, ?_⟩⟩
      · rw [hdrawing.minPart, some.injEq]
        exact hmc
      · intro hlt
        refine (hfirst hlt).eraseP ?_
        intro heq
        rw [heq, hend] at hlt
        exact lt_irrefl p hlt
  · refine ⟨_, if_neg ?_, hsweep, hpending, hlater, h.good, .inr { hidle with }⟩
    rw [hidle.minPart]
    simp

end Ending

theorem processCurveEnds_spec [IsStrictOrderedRing K] [DecidableEq Ref] [DecidableEq Attrs]
    (hflat : AllFlat heap parts) {lo p : K} : ∀ {rest : List (EnvelopeChange K Ref)}
    {s : MRSPEnvelopeBuilder K Attrs Ref}, Ending heap parts lo p s rest → ∃ s' rest',
      processCurveEnds heap p s rest = some (s', rest') ∧ Ending heap parts lo p s' rest' ∧
      (∀ c ∈ rest', p < c.position) ∧ rest'.length ≤ rest.length ∧
      ∀ c ∈ rest.head?, c.type = .END → c.position = p → rest'.length < rest.length
  | [], s, h => ⟨s, [], rfl, h, by simp, le_rfl, by simp⟩
  | c :: rest, s, h => by
    rw [processCurveEnds]
    by_cases hstop : c.type ≠ .END ∨ p < c.position
    · rw [if_pos hstop]
      have hlt : p < c.position := by
        rcases hstop with htype | hlt
        · refine h.later c mem_cons_self ?_
          cases hc : c.type with
          | BEGIN => rfl
          | END => exact absurd hc htype
        · exact hlt
      refine ⟨s, c :: rest, rfl, h, forall_mem_cons.mpr
        ⟨hlt, fun c' hc' => hlt.trans_le (h.sweep.position_le c' hc')⟩, le_rfl, ?_⟩
      · intro c' hc' _ hposition
        cases hc'
        exact absurd hposition hlt.ne'
    · rw [if_neg hstop]
      rw [not_or, not_not, not_lt] at hstop
      have hposition : c.position = p := le_antisymm hstop.2 (h.sweep.le c mem_cons_self)
      obtain ⟨s₁, hs₁, h₁⟩ := h.step hflat hstop.1 hposition
      obtain ⟨s', rest', hs', h', hlater, hlength, -⟩ := processCurveEnds_spec hflat h₁
      refine ⟨s', rest', ?_, h', hlater, ?_, ?_⟩
      · simp only [hs₁]
        exact hs'
      · rw [length_cons]
        omega
      · intro _ _ _ _
        rw [length_cons]
        omega

section Turns

variable {lo hi p : K} {s : MRSPEnvelopeBuilder K Attrs Ref} {rest : List (EnvelopeChange K Ref)}

/-- Nothing has been drawn since `p`. -/
theorem LowestUntil.refl (m : Ref) (p : K) : LowestUntil heap parts m p p := by
  intro x hx hx'
  exact absurd hx hx'.le.not_gt

/-- The parts cover an interval without gaps. -/
def Union (heap : Ref → EnvelopePart K Attrs) (parts : List Ref) (lo hi : K) : Prop :=
  ∀ x, (∃ r ∈ parts, Covers (heap r) x) ↔ lo ≤ x ∧ x ≤ hi

section Flat

variable (hflat : AllFlat heap parts)

include hflat

/-- A part with the lowest speed up to `p`, and in the list from `p` on. -/
theorem LowestUntil.extend {m : Ref} {start : K} (hleast : LowestUntil heap parts m start p)
    (hsweep : Sweep heap parts p s.activeParts rest)
    (hm : FirstMin heap s.activeParts m) (stop : K) (hstop : ∀ c ∈ rest, stop ≤ c.position) :
    LowestUntil heap parts m start stop := by
  intro x hx hx' hbound
  rcases lt_trichotomy x p with hlt | rfl | hlt
  · exact hleast x hx hlt hbound
  · exact absurd hsweep.bound hbound
  · exact hsweep.isLeast hflat hlt (fun c hc => hx'.trans_le (hstop c hc)) hm.mem hm.le

theorem Ready.next (h : Ready heap parts p s rest) {m : Ref}
    (hm : FirstMin heap s.activeParts m) {s' : MRSPEnvelopeBuilder K Attrs Ref}
    (hactive : s'.activeParts = s.activeParts) (hdrawing : Drawing heap parts lo s' m p)
    (hgood : ∀ part ∈ s'.buildResult, Good heap parts part) : Turn heap parts lo p s' rest := by
  have hsweep := h.sweep
  rw [← hactive] at hsweep hm
  exact ⟨hsweep, hactive ▸ h.pending, hgood, .inl ⟨m, p, hdrawing, hm, le_rfl, h.later,
    (LowestUntil.refl m p).extend hflat hsweep hm⟩⟩

theorem Bound.covered {x : K} (h : Bound heap parts x) : ∃ r ∈ parts, Covers (heap r) x := by
  obtain ⟨r, hr, rfl | rfl⟩ := h
  · exact ⟨r, hr, le_rfl, (hflat r hr).2.le⟩
  · exact ⟨r, hr, (hflat r hr).2.le, le_rfl⟩

/-- There is no gap after which a part would begin. -/
theorem Sweep.eq_nil [IsStrictOrderedRing K] (h : Sweep heap parts p [] rest)
    (hunion : Union heap parts lo hi) (hlater : ∀ c ∈ rest, p < c.position) : rest = [] := by
  cases rest with
  | nil => rfl
  | cons c rest =>
    obtain ⟨x, hpx, hxc⟩ := exists_between (hlater c mem_cons_self)
    have hp := (hunion p).mp (h.bound.covered hflat)
    have hc := (hunion c.position).mp (h.head.bound.covered hflat)
    obtain ⟨r, hr, hcovers⟩ := (hunion x).mpr ⟨hp.1.trans hpx.le, hxc.le.trans hc.2⟩
    have hmem := (h.covers_iff hpx fun c' hc' => hxc.trans_le (h.head.le c' hc')).mpr
      ⟨r, hr, rfl, hcovers⟩
    cases hmem

variable [DecidableEq Ref]

theorem Ready.first (h : Ready heap parts p s rest) (hidle : Idle lo p s)
    (hne : s.activeParts ≠ []) (hend : ∀ r ∈ s.activeParts, p < (heap r).endPos) :
    ∃ s', s.updateMinPart heap p = some s' ∧ Turn heap parts lo p s' rest := by
  obtain ⟨s', m, hs', hactive, hm, hdrawing, hresult⟩ :=
    hidle.updateMinPart hne (fun r hr => ⟨(h.sweep.begun r hr).1, hend r hr⟩) h.sweep.bound
  exact ⟨s', hs', h.next hflat hm hactive hdrawing (hresult ▸ h.good)⟩

theorem Ready.same (h : Ready heap parts p s rest) {m : Ref} {start : K}
    (hdrawing : Drawing heap parts lo s m start) (hstart : start ≤ p)
    (hleast : LowestUntil heap parts m start p) (hm : FirstMin heap s.activeParts m) :
    ∃ s', s.updateMinPart heap p = some s' ∧ Turn heap parts lo p s' rest :=
  ⟨s, hdrawing.updateMinPart_same hm, h.sweep, h.pending, h.good, .inl ⟨m, start, hdrawing, hm, hstart,
    fun c hc htype => hstart.trans_lt (h.later c hc htype), hleast.extend hflat h.sweep hm⟩⟩

variable [DecidableEq Attrs]

/-- A turn of the loop. -/
def Turns (heap : Ref → EnvelopePart K Attrs) (parts : List Ref) (lo : K)
    (s : MRSPEnvelopeBuilder K Attrs Ref) (c : EnvelopeChange K Ref) (rest : List (EnvelopeChange K Ref)) :
      Prop :=
  ∃ s' rest', (∀ turns, buildLoop heap (turns + 1) s (c :: rest) = buildLoop heap turns s' rest') ∧
    rest'.length < (c :: rest).length ∧ Turn heap parts lo c.position s' rest'

omit hflat in
theorem turns_of_steps {ended started : MRSPEnvelopeBuilder K Attrs Ref}
    {mid rest' : List (EnvelopeChange K Ref)}
    (hends : processCurveEnds heap c.position s (c :: rest) = some (ended, mid))
    (hstarts : processCurveStarts c.position ended mid = (started, rest'))
    (hlength : rest'.length < (c :: rest).length)
    (hupdate : ∃ s', started.updateMinPart heap c.position = some s' ∧
      Turn heap parts lo c.position s' rest') :
    Turns heap parts lo s c rest := by
  obtain ⟨s', hs', hturn⟩ := hupdate
  refine ⟨s', rest', fun turns => ?_, hlength, hturn⟩
  rw [buildLoop]
  simp only [hends, hstarts, hs', bind_eq_bind, bind_some]

variable [IsStrictOrderedRing K]

theorem Turn.starts (h : Turn heap parts lo p s (c :: rest))
    (htype : c.type = .BEGIN) : Turns heap parts lo s c rest := by
  have hends : processCurveEnds heap c.position s (c :: rest) = some (s, c :: rest) := by
    rw [processCurveEnds, if_pos (.inl (by rw [htype]; decide))]
  obtain ⟨new, rest', hstarted, heq, hlength, hnew⟩ := processCurveStarts_spec h.sweep.head h.pending
  have hnew : new ≠ [] := hnew c rfl htype rfl
  have hlt : rest'.length < (c :: rest).length := by
    have hpos := length_pos_of_ne_nil hnew
    omega
  have hpos : ∀ r ∈ new, r ∈ parts ∧ c.position < (heap r).endPos := by
    intro r hr
    have hmem := (hstarted.sweep.begun r (mem_append_right _ hr)).1
    exact ⟨hmem, hstarted.begin_eq r hr ▸ (hflat _ hmem).2⟩
  have hready : Ready heap parts c.position { s with activeParts := s.activeParts ++ new } rest' :=
    ⟨hstarted.sweep, hstarted.pending, h.good, hstarted.later⟩
  refine turns_of_steps hends heq hlt ?_
  rcases h.current with ⟨m, start, hopen⟩ | hclosed
  · have hdrawing : Drawing heap parts lo { s with activeParts := s.activeParts ++ new } m start :=
      { hopen.drawing with }
    have hstart : start < c.position := hopen.before c mem_cons_self htype
    have hleast := hopen.least c.position h.sweep.head.le
    obtain ⟨m', hm', -⟩ := minimum_spec heap (some m) (append_ne_nil_of_right_ne_nil s.activeParts hnew)
    by_cases hmm : m' = m
    · subst hmm
      exact hready.same hflat hdrawing hstart.le hleast hm'
    · -- the part that takes over has just come in
      have hmem : m' ∈ new := by
        rcases hm'.of_append with hmem | hfirst
        · exact hmem
        · exact absurd (hfirst.unique hopen.first) hmm
      obtain ⟨s', hs', hactive, hdrawing', hgood⟩ :=
        hdrawing.updateMinPart_next h.good hm' hmm (hpos m' hmem).1 hstart hstarted.sweep.bound hleast
          (hpos m' hmem).2
      exact ⟨s', hs', hready.next hflat hm' hactive hdrawing' hgood⟩
  · have hposition : c.position = p := hclosed.head c rfl
    refine hready.first hflat ⟨hclosed.idle.minPart, hclosed.idle.builder, hposition ▸ hclosed.idle.walk⟩
      (by simp [hnew]) ?_
    rw [hclosed.empty, nil_append]
    exact fun r hr => (hpos r hr).2

theorem Turn.ends (h : Turn heap parts lo p s (c :: rest))
    (hunion : Union heap parts lo hi) (htype : c.type = .END) : Turns heap parts lo s c rest := by
  have hending : Ending heap parts lo c.position s (c :: rest) := by
    refine ⟨h.sweep.head, fun r hr _ => h.pending r hr, ?_, h.good, ?_⟩
    · exact h.sweep.head.later (.inl (by rw [htype]; decide))
    · rcases h.current with ⟨m, start, hopen⟩ | hclosed
      · exact .inl ⟨m, start, hopen.drawing, hopen.start_le.trans (h.sweep.le c mem_cons_self),
          hopen.least c.position h.sweep.head.le, h.pending m hopen.first.mem, fun _ => hopen.first⟩
      · -- no part can end
        have hmem := h.sweep.mem_of_end hflat htype
        rw [hclosed.empty] at hmem
        cases hmem
  obtain ⟨ended, rest', heq, hended, hlater, -, hlength⟩ := processCurveEnds_spec hflat hending
  have hend : ∀ r ∈ ended.activeParts, c.position < (heap r).endPos := by
    intro r hr
    obtain ⟨c', hc', -, -, hposition⟩ := hended.sweep.exists_end hr
    exact hposition ▸ hlater c' hc'
  have hready : Ready heap parts c.position ended rest' :=
    ⟨hended.sweep, fun r hr => hended.pending r hr (hend r hr), hended.good, hended.later⟩
  have hstarts : processCurveStarts c.position ended rest' = (ended, rest') := by
    cases rest' with
    | nil => rfl
    | cons c' rest' =>
      rw [processCurveStarts, if_pos (.inr (hlater c' mem_cons_self))]
  refine turns_of_steps heq hstarts (hlength c rfl htype rfl) ?_
  rcases hended.current with ⟨m, start, hdrawing, hstart, hleast, ⟨e, he, hetype, rfl⟩, hfirst⟩ | hidle
  · have hm : c.position < (heap e.part).endPos := by
      have hposition := (hended.sweep.genuine e he).2
      rw [hetype] at hposition
      exact (hlater e he).trans_eq hposition
    exact hready.same hflat hdrawing hstart hleast (hfirst hm)
  · by_cases hempty : ended.activeParts = []
    · have hsweep := hended.sweep
      rw [hempty] at hsweep
      have hnil : rest' = [] := hsweep.eq_nil hflat hunion hlater
      refine ⟨ended, ?_, hended.sweep, hready.pending, hended.good, .inr ⟨hidle, hempty, by simp [hnil]⟩⟩
      simp [MRSPEnvelopeBuilder.updateMinPart, hempty, hidle.minPart]
    · exact hready.first hflat hidle hempty hend

/-- The loop ends after the last change, with the result drawn up to it. -/
theorem buildLoop_spec (hunion : Union heap parts lo hi) :
    ∀ {turns : ℕ} {p : K} {s : MRSPEnvelopeBuilder K Attrs Ref}
    {rest : List (EnvelopeChange K Ref)}, Turn heap parts lo p s rest → rest.length ≤ turns →
    ∃ s' p', buildLoop heap turns s rest = some s' ∧ Turn heap parts lo p' s' []
  | _, p, s, [], h, _ => ⟨s, p, by rw [buildLoop], h⟩
  | turns + 1, p, s, c :: rest, h, hturns => by
    obtain ⟨s', rest', hstep, hlength, hturn⟩ : Turns heap parts lo s c rest := by
      cases htype : c.type with
      | BEGIN => exact h.starts hflat htype
      | END => exact h.ends hflat hunion htype
    rw [hstep]
    exact buildLoop_spec hunion hturn (Nat.le_of_lt_succ (hlength.trans_le hturns))

end Flat

end Turns

/-! ### The first turn -/

/-- The changes of the parts, in the order in which the parts were added. -/
def changesOfAll (heap : Ref → EnvelopePart K Attrs) (parts : List Ref) : List (EnvelopeChange K Ref) :=
  parts.flatMap (changesOf heap)

theorem mem_changesOfAll : c ∈ changesOfAll heap parts ↔ Genuine heap parts c := by
  simp only [changesOfAll, mem_flatMap, changesOf, mem_cons, not_mem_nil, or_false]
  constructor
  · rintro ⟨r, hr, rfl | rfl⟩
    · exact ⟨hr, rfl⟩
    · exact ⟨hr, rfl⟩
  · rintro ⟨hmem, hposition⟩
    obtain ⟨position, r, type⟩ := c
    refine ⟨r, hmem, ?_⟩
    cases type with
    | BEGIN => exact .inl (by rw [show position = (heap r).beginPos from hposition])
    | END => exact .inr (by rw [show position = (heap r).endPos from hposition])

theorem values_changesOfAll (type : EnvelopeChangeType) (parts : List Ref) :
    values heap type (changesOfAll heap parts) = parts.map heap := by
  induction parts with
  | nil => rfl
  | cons r parts ih =>
    have happend : changesOfAll heap (r :: parts) =
        ⟨(heap r).beginPos, r, .BEGIN⟩ :: ⟨(heap r).endPos, r, .END⟩ :: changesOfAll heap parts := rfl
    rw [happend, values_cons, values_cons, ih]
    cases type <;> rfl

/-- The parts can all be added when they have one step. -/
theorem foldlM_addPart_eq_some_iff (hflat : AllFlat heap parts) :
    parts.foldlM (addPart heap) [] = some (changesOfAll heap parts) ↔
      ∀ r ∈ parts, (heap r).stepCount = 1 := by
  have hgen : ∀ (parts : List Ref) (changes : List (EnvelopeChange K Ref)), AllFlat heap parts →
      (parts.foldlM (addPart heap) changes = some (changes ++ changesOfAll heap parts) ↔
        ∀ r ∈ parts, (heap r).stepCount = 1) := by
    intro parts
    induction parts with
    | nil => simp [changesOfAll]
    | cons r parts ih =>
      intro changes hflat
      have hspeed := (heap r).minSpeed_eq_maxSpeed_iff.mpr (hflat r mem_cons_self).1
      have ih := ih (changes ++ changesOf heap r) (forall_mem_cons.mp hflat).2
      rw [foldlM_cons, forall_mem_cons, addPart]
      by_cases hstep : (heap r).stepCount = 1
      · rw [if_pos ⟨hstep, hspeed⟩]
        simpa [changesOfAll, hstep] using ih
      · simp [hstep]
  simpa using hgen parts [] hflat

instance : Std.Total (le : EnvelopeChange K Ref → EnvelopeChange K Ref → Prop) where
  total a b := by
    rcases lt_trichotomy a.position b.position with h | h | h
    · exact .inl (.inl h)
    · exact (le_total a.type.priority b.type.priority).imp (fun hle => .inr ⟨h, hle⟩)
        fun hle => .inr ⟨h.symm, hle⟩
    · exact .inr (.inl h)

instance : IsTrans (EnvelopeChange K Ref) le where
  trans a b c := by
    rintro (hab | ⟨hab, hab'⟩) (hbc | ⟨hbc, hbc'⟩)
    · exact .inl (hab.trans hbc)
    · exact .inl (hab.trans_eq hbc)
    · exact .inl (hab.trans_lt hbc)
    · exact .inr ⟨hab.trans hbc, hab'.trans hbc'⟩

section First

variable {lo hi : K}

/-- The interval starts at a bound. -/
theorem Union.exists_begin (hunion : Union heap parts lo hi) (hflat : AllFlat heap parts)
    (hle : lo ≤ hi) : ∃ r ∈ parts, (heap r).beginPos = lo := by
  obtain ⟨r, hr, hbegin, -⟩ := (hunion lo).mpr ⟨le_rfl, hle⟩
  refine ⟨r, hr, le_antisymm hbegin ?_⟩
  exact ((hunion _).mp ⟨r, hr, le_rfl, (hflat r hr).2.le⟩).1

theorem Union.turn_first (hunion : Union heap parts lo hi) (hflat : AllFlat heap parts)
    (hle : lo ≤ hi) : Turn heap parts lo lo (⟨none, none, [], none, []⟩ : MRSPEnvelopeBuilder K Attrs Ref)
      ((changesOfAll heap parts).insertionSort le) := by
  obtain ⟨first, hfirst, hlo⟩ := hunion.exists_begin hflat hle
  set changes := (changesOfAll heap parts).insertionSort le with hchanges
  have hperm : changes.Perm (changesOfAll heap parts) := perm_insertionSort ..
  have hmem : ∀ c, c ∈ changes ↔ Genuine heap parts c := fun c =>
    hperm.mem_iff.trans mem_changesOfAll
  have hvalues : ∀ type, (values heap type changes).Perm (parts.map heap) := by
    intro type
    rw [← values_changesOfAll type parts]
    exact (hperm.filter _).map _
  have hsorted : changes.Pairwise le := pairwise_insertionSort ..
  have hge : ∀ c ∈ changes, lo ≤ c.position := fun c hc =>
    ((hunion _).mp (((hmem c).mp hc).bound.covered hflat)).1
  refine ⟨⟨hsorted, fun c hc => (hmem c).mp hc, ?_, by simp, ?_, hge, ⟨first, hfirst, .inl hlo.symm⟩,
    ?_⟩, by simp [Pending], by simp, .inr ⟨⟨rfl, rfl, rfl⟩, rfl, ?_⟩⟩
  · exact (hvalues .BEGIN).trans (hvalues .END).symm
  · intro r hr
    exact .inl ((hvalues .END).mem_iff.mpr (mem_map_of_mem hr))
  · intro c hc _
    exact ⟨⟨(heap c.part).endPos, c.part, .END⟩, (hmem _).mpr ⟨((hmem c).mp hc).1, rfl⟩, rfl, rfl⟩
  · intro c hc
    -- the first change is not after the begin of the first part
    refine le_antisymm ?_ (hge c (mem_of_head? hc))
    have hbegin : ⟨(heap first).beginPos, first, .BEGIN⟩ ∈ changes := (hmem _).mpr ⟨hfirst, rfl⟩
    cases hcases : changes with
    | nil => simp [hcases] at hbegin
    | cons c' rest =>
      rw [hcases] at hc hbegin hsorted
      cases hc
      rcases mem_cons.mp hbegin with heq | hbegin
      · rw [← heq]
        exact hlo.le
      · rcases rel_of_pairwise_cons hsorted hbegin with hlt | ⟨heq, -⟩
        · exact hlt.le.trans hlo.le
        · exact heq.le.trans hlo.le

end First

/-! ### The profile -/

/-- The envelope is the minimum of the parts. -/
structure IsMinimum (heap : Ref → EnvelopePart K Attrs) (parts : List Ref) (envelope : Envelope K Attrs) :
    Prop where
  sorted : envelope.parts.Pairwise fun a b => a.endPos ≤ b.beginPos
  contiguous : envelope.parts.IsChain fun a b => a.endPos = b.beginPos
  positive : ∀ part ∈ envelope.parts, part.beginPos < part.endPos
  covers : ∀ x, (∃ part ∈ envelope.parts, Covers part x) ↔ ∃ r ∈ parts, Covers (heap r) x
  least : ∀ part ∈ envelope.parts, ∀ x, Covers part x → ¬ Bound heap parts x →
    ∃ v, part.HasSpeed v ∧ IsLeast (speedsAt heap parts x) v

/-- What the loop has built in the end. -/
theorem Turn.isMinimum {lo hi p : K}
    (h : Turn heap parts lo p s []) (hflat : AllFlat heap parts) (hunion : Union heap parts lo hi)
    (hle : lo ≤ hi) : ∃ envelope, Envelope.make s.buildResult = some envelope ∧
      IsMinimum heap parts envelope := by
  have hempty : s.activeParts = [] := by simpa [values] using h.sweep.balance
  have hidle : Idle lo p s := by
    rcases h.current with ⟨m, start, hopen⟩ | hclosed
    · have hmem := hopen.first.mem
      rw [hempty] at hmem
      cases hmem
    · exact hclosed.idle
  have hend : ∀ r ∈ parts, (heap r).endPos ≤ p := by
    intro r hr
    rcases h.sweep.gone r hr with hmem | hle
    · cases hmem
    · exact hle
  have hp : p = hi := by
    refine le_antisymm ((hunion p).mp (h.sweep.bound.covered hflat)).2 ?_
    obtain ⟨r, hr, -, hcovers⟩ := (hunion hi).mpr ⟨hle, le_rfl⟩
    exact hcovers.trans (hend r hr)
  have hpositive : ∀ part ∈ s.buildResult, part.beginPos < part.endPos := by
    intro part hpart
    obtain ⟨v, hv⟩ := (h.good part hpart).flat
    exact hv.start_lt_stop
  have hne : s.buildResult ≠ [] := by
    intro hnil
    have hwalk := hidle.walk
    rw [hnil] at hwalk
    obtain ⟨r, hr, hbegin⟩ := hunion.exists_begin hflat hle
    have hlt := (hflat r hr).2.trans_le (hend r hr)
    rw [hbegin] at hlt
    exact hlt.ne hwalk
  have hchain := hidle.walk.isChain
  refine ⟨⟨s.buildResult, hne, hchain⟩, dif_pos ⟨hne, hchain⟩, hidle.walk.pairwise hpositive, hchain,
    hpositive, ?_, ?_⟩
  · intro x
    rw [hunion x, ← hp]
    constructor
    · rintro ⟨part, hpart, hbegin, hend⟩
      exact ⟨(hidle.walk.source_le hpositive part hpart).trans hbegin,
        hend.trans ((hidle.walk.target_le hpositive).2 part hpart)⟩
    · rintro ⟨hlo, hhi⟩
      exact hidle.walk.exists_cover hne x hlo hhi
  · intro part hpart x hcovers hbound
    obtain ⟨⟨v, hv⟩, ⟨hbegin, hend⟩, hleast⟩ := h.good part hpart
    refine ⟨v, hv.hasSpeed, hleast x v (lt_of_le_of_ne hcovers.1 ?_) (lt_of_le_of_ne hcovers.2 ?_) hbound
      hv.hasSpeed⟩
    · rintro rfl
      exact hbound hbegin
    · rintro rfl
      exact hbound hend

end Sweep

section Profile

variable {K Attrs Ref : Type} [Field K] [LinearOrder K] [IsStrictOrderedRing K] [DecidableEq Ref]
  [DecidableEq Attrs]

/-- The builder makes the minimum of flat parts whose union is an interval, in whatever order they are
    added: it takes all those with one step, and would not fail on others. -/
theorem build_isMinimum (heap : Ref → EnvelopePart K Attrs) (parts : List Ref) (lo hi : K)
    (hflat : AllFlat heap parts) (hle : lo ≤ hi) (hunion : Union heap parts lo hi) :
    (parts.foldlM (addPart heap) [] = some (changesOfAll heap parts) ↔
      ∀ r ∈ parts, (heap r).stepCount = 1) ∧
    ∃ envelope, build heap (changesOfAll heap parts) = some envelope ∧
      IsMinimum heap parts envelope := by
  refine ⟨foldlM_addPart_eq_some_iff hflat, ?_⟩
  obtain ⟨s, p, hloop, hturn⟩ := buildLoop_spec hflat hunion (hunion.turn_first hflat hle) le_rfl
  obtain ⟨envelope, hmake, hminimum⟩ := hturn.isMinimum hflat hunion hle
  refine ⟨envelope, ?_, hminimum⟩
  simp only [build, hloop]
  exact hmake

end Profile

/-- Two parts that overlap. -/
def twoLimits : Bool → EnvelopePart ℚ Unit
  | false => ⟨(), [0, 10], [5, 5], [((2 : ℚ) : WithTop ℚ)], by decide, by decide, by decide, by decide,
      by decide, by decide⟩
  | true => ⟨(), [4, 12], [4, 4], [((2 : ℚ) : WithTop ℚ)], by decide, by decide, by decide, by decide,
      by decide, by decide⟩

theorem union_twoLimits : Union twoLimits [true, false] 0 12 := by
  intro x
  have hcovers : ∀ b, Covers (twoLimits b) x ↔ if b then 4 ≤ x ∧ x ≤ 12 else 0 ≤ x ∧ x ≤ 10 := by
    intro b
    cases b <;> exact Iff.rfl
  simp only [hcovers, mem_cons, not_mem_nil, or_false, exists_eq_or_imp, exists_eq_left,
    if_true, Bool.false_eq_true, if_false]
  grind

/-- The first part is drawn up to the begin of the slower one. -/
theorem build_isMinimum_twoLimits : ∃ envelope,
    build twoLimits (changesOfAll twoLimits [true, false]) = some envelope ∧
    envelope.parts.map (·.positions) = [[0, 4], [4, 12]] ∧
    IsMinimum twoLimits [true, false] envelope := by
  have hflat : AllFlat twoLimits [true, false] := by
    intro r _
    cases r with
    | false => exact ⟨⟨5, by simp [EnvelopePart.HasSpeed, twoLimits]⟩, by decide⟩
    | true => exact ⟨⟨4, by simp [EnvelopePart.HasSpeed, twoLimits]⟩, by decide⟩
  obtain ⟨-, envelope, hbuild, hminimum⟩ :=
    build_isMinimum twoLimits [true, false] 0 12 hflat (by decide) union_twoLimits
  refine ⟨envelope, hbuild, ?_, hminimum⟩
  have hrun : (build twoLimits (changesOfAll twoLimits [true, false])).map
      (fun envelope => envelope.parts.map (·.positions)) = some [[0, 4], [4, 12]] := by
    decide +kernel
  rwa [hbuild, map_some, some.injEq] at hrun

end Osrd.EnvelopeSim.Mrsp
