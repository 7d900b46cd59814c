import Osrd.Stdcm.StepTracker

/-! How far the lookahead of a `StepTracker` is moved over the explored ranges
    (`core/.../stdcm/infra_exploration/StepTracker.kt`, `moveForward`).

    The calls are interleaved: a range is explored, and later moved over, in the same order. The history
    keeps for each explored range what its call has registered, so the steps that should be out of the
    lookahead are those of the ranges moved over. `moveForward` does not know them: it passes the steps in
    order for as long as they lie in the range by block and offset. So after any calls it has passed as many
    steps as can be given, in order, to moves over ranges they lie in (`Placeable`). The steps of the ranges
    moved over always can; the number is exact iff they cannot together with the step registered next. -/

namespace Osrd.Stdcm.StepTracker

open List Option Nat

variable {p : BlockRange × List LocatedStep} (inputSteps : List ExplorerStep)

/-! ### The calls -/

inductive Call
  | explore (range : BlockRange)
  | move

/-- The tracker, what each call of `exploreBlockRange` has registered, and the ranges moved over, each with
    the number of steps that were registered at that time. -/
structure History where
  tracker : StepTracker
  explored : List (BlockRange × List LocatedStep)
  moves : List (BlockRange × ℕ)

namespace History

def start : History := ⟨new inputSteps, [], []⟩

variable (h : History)

def explore (range : BlockRange) : History :=
  let called := h.tracker.exploreBlockRange range.block range.rangeStart range.rangeEnd
  { h with tracker := called.1, explored := h.explored ++ [(range, called.2)] }

def move (range : BlockRange) : History :=
  { h with
    tracker := h.tracker.moveForward range.block range.rangeStart range.rangeEnd
    moves := h.moves ++ [(range, h.tracker.nSeenSteps)] }

/-- One call; a range has to be explored before it is moved over. -/
def call : Call → Option History
  | .explore range => some (h.explore range)
  | .move => (h.explored[h.moves.length]?).map fun next => h.move next.1

/-- The history after the calls; `none` when a range was moved over before it was explored. -/
def run (calls : List Call) : Option History :=
  calls.foldlM call (start inputSteps)

/-- The steps registered by the ranges moved over. -/
def passed : List LocatedStep := (h.explored.take h.moves.length).flatMap (·.2)

/-- The step lies in the range, by block and offset. -/
def LiesIn (range : BlockRange) (step : LocatedStep) : Prop :=
  step.location.edge = range.block ∧ range.rangeStart ≤ step.location.offset ∧
    step.location.offset ≤ range.rangeEnd

instance (range : BlockRange) (step : LocatedStep) : Decidable (LiesIn range step) :=
  inferInstanceAs (Decidable (_ ∧ _))

/-- The step of that number lies in the range. -/
def StepIn (range : BlockRange) (i : ℕ) : Prop :=
  ∃ step, h.tracker.seenSteps[i]? = some step ∧ LiesIn range step

/-- The first `n` registered steps can be given to the moves, in order, each to a move over a range it lies
    in that was made after it was registered. -/
def Placeable (n : ℕ) : Prop :=
  ∃ slot : ℕ → ℕ, (∀ i j, i ≤ j → j < n → slot i ≤ slot j) ∧
    ∀ i < n, ∃ range known, h.moves[slot i]? = some (range, known) ∧ i < known ∧ h.StepIn range i

/-! ### One call -/

/-- What holds of the steps registered so far. -/
structure Recorded (h : History) : Prop where
  seenSteps_eq : h.tracker.seenSteps = h.explored.flatMap (·.2)
  liesIn : ∀ p ∈ h.explored, ∀ step ∈ p.2, LiesIn p.1 step
  moves_le : h.moves.length ≤ h.explored.length
  known_le : ∀ m ∈ h.moves, m.2 ≤ h.tracker.nSeenSteps

variable {h h' : History} {range : BlockRange} {n : ℕ}

theorem exploreBlockRange_liesIn (t : StepTracker) (range : BlockRange) :
    ∀ step ∈ (t.exploreBlockRange range.block range.rangeStart range.rangeEnd).2, LiesIn range step := by
  intro step hstep
  have hlocated := (exploreBlockRange_spec t range.block range.rangeStart range.rangeEnd).1
  obtain ⟨i, hi, rfl⟩ := getElem_of_mem hstep
  obtain ⟨hlength, hat⟩ := forall₂_iff_get.mp hlocated
  obtain ⟨hlocation, -⟩ := hat i hi (hlength ▸ hi)
  rw [get_eq_getElem] at hlocation
  rw [LiesIn, hlocation]
  exact ⟨rfl, locatedOffsets_le _ (get_mem _ _)⟩

theorem recorded_start : (start inputSteps).Recorded where
  seenSteps_eq := rfl
  liesIn := by simp [start]
  moves_le := le_rfl
  known_le := by simp [start]

theorem seenSteps_explore (h : History) (range : BlockRange) :
    (h.explore range).tracker.seenSteps = h.tracker.seenSteps ++
      (h.tracker.exploreBlockRange range.block range.rangeStart range.rangeEnd).2 := rfl

theorem Recorded.explore (hrec : h.Recorded) (range : BlockRange) : (h.explore range).Recorded where
  seenSteps_eq := by
    rw [seenSteps_explore, hrec.seenSteps_eq, History.explore, flatMap_append]
    simp
  liesIn := by
    intro p hp
    rcases mem_append.mp hp with hp | hp
    · exact hrec.liesIn p hp
    · rw [mem_singleton.mp hp]
      exact exploreBlockRange_liesIn h.tracker range
  moves_le := by
    rw [History.explore, length_append]
    exact hrec.moves_le.trans (le_add_right _ _)
  known_le := by
    intro m hm
    rw [nSeenSteps, seenSteps_explore, length_append]
    exact (hrec.known_le m hm).trans (le_add_right _ _)

theorem Recorded.move (hrec : h.Recorded)
    (hnext : h.explored[h.moves.length]? = some p) : (h.move p.1).Recorded where
  seenSteps_eq := hrec.seenSteps_eq
  liesIn := hrec.liesIn
  moves_le := by
    rw [History.move, length_append]
    exact (List.getElem?_eq_some_iff.mp hnext).1
  known_le := by
    intro m hm
    rcases mem_append.mp hm with hm | hm
    · exact hrec.known_le m hm
    · exact mem_singleton.mp hm ▸ le_rfl

/-- `moveForward` passes the steps of the lookahead, in order, for as long as they lie in the range. -/
theorem nStepsExcludingLookahead_moveForward (t : StepTracker) (range : BlockRange)
    (hle : t.nStepsExcludingLookahead ≤ t.nSeenSteps) :
    (t.moveForward range.block range.rangeStart range.rangeEnd).nStepsExcludingLookahead =
      t.nStepsExcludingLookahead + ((t.seenSteps.drop t.nStepsExcludingLookahead).takeWhile
        fun s => LiesIn range s).length := by
  have hmove : (t.moveForward range.block range.rangeStart range.rangeEnd).nStepsExcludingLookahead =
      t.nSeenSteps -
        (t.iterateStepsInLookaheadBackwards.rdropWhile fun s => LiesIn range s).length := rfl
  have hlookahead : t.iterateStepsInLookaheadBackwards =
      (t.seenSteps.drop t.nStepsExcludingLookahead).reverse := by
    rw [iterateStepsInLookaheadBackwards, reverse_drop]
  have hsplit := congrArg length (takeWhile_append_dropWhile
    (p := fun s => decide (LiesIn range s)) (l := t.seenSteps.drop t.nStepsExcludingLookahead))
  rw [length_append, length_drop] at hsplit
  rw [hmove, hlookahead, rdropWhile, reverse_reverse, length_reverse]
  rw [nSeenSteps] at hle ⊢
  omega

/-! ### What can be placed -/

theorem Placeable.mono {m : ℕ} (hplace : h.Placeable n) (hle : m ≤ n) : h.Placeable m := by
  obtain ⟨slot, hmono, hslot⟩ := hplace
  exact ⟨slot, fun i j hij hj => hmono i j hij (hj.trans_le hle), fun i hi => hslot i (hi.trans_le hle)⟩

theorem getElem?_moves_move (h : History) (range : BlockRange) (i : ℕ) : (h.move range).moves[i]? =
      if i < h.moves.length then h.moves[i]?
      else if i = h.moves.length then some (range, h.tracker.nSeenSteps) else none := by
  rw [move, getElem?_append]
  split
  · rfl
  · next hge =>
    split
    · next heq => simp [heq]
    · next hne => exact getElem?_eq_none (by rw [length_singleton]; omega)

/-- One more move: some steps are placed before, and the others all lie in the new range. -/
theorem placeable_move : (h.move range).Placeable n ↔
    ∃ m ≤ n, h.Placeable m ∧ ∀ i, m ≤ i → i < n → h.StepIn range i := by
  constructor
  · intro hplace
    -- the cut is after the last step that is given to an earlier move
    induction n with
    | zero => exact ⟨0, le_rfl, ⟨id, by simp, by simp⟩, by simp⟩
    | succ n ih =>
      obtain ⟨slot, hmono, hslot⟩ := id hplace
      obtain ⟨range', known, hget, -, hlies⟩ := hslot n (lt_succ_self n)
      rw [getElem?_moves_move] at hget
      by_cases hlt : slot n < h.moves.length
      · refine ⟨n + 1, le_rfl, ⟨slot, hmono, fun i hi => ?_⟩, fun i hle hi => by omega⟩
        obtain ⟨range'', known', hget', hrest⟩ := hslot i hi
        have hle := (hmono i n (Nat.lt_succ_iff.mp hi) (Nat.lt_succ_self n)).trans_lt hlt
        rw [getElem?_moves_move, if_pos hle] at hget'
        exact ⟨range'', known', hget', hrest⟩
      · rw [if_neg hlt, ite_none_right_eq_some, some.injEq, Prod.mk.injEq] at hget
        obtain ⟨-, rfl, -⟩ := hget
        obtain ⟨m, hm, hbefore, hin⟩ := ih (hplace.mono (le_succ n))
        refine ⟨m, hm.trans (le_succ n), hbefore, fun i hmi hi => ?_⟩
        rcases (Nat.lt_succ_iff.mp hi).lt_or_eq with hi | rfl
        · exact hin i hmi hi
        · exact hlies
  · rintro ⟨m, hm, ⟨slot, hmono, hslot⟩, hin⟩
    have hsmall : ∀ i < m, slot i < h.moves.length := by
      intro i hi
      obtain ⟨_, _, hget, -⟩ := hslot i hi
      exact (List.getElem?_eq_some_iff.mp hget).1
    refine ⟨fun i => if i < m then slot i else h.moves.length, fun i j hij hj => ?_, fun i hi => ?_⟩
    · by_cases hjm : j < m
      · simp only [if_pos hjm, if_pos (hij.trans_lt hjm)]
        exact hmono i j hij hjm
      · simp only [if_neg hjm]
        split
        · next him => exact (hsmall i him).le
        · exact le_rfl
    · by_cases him : i < m
      · obtain ⟨range', known, hget, hrest⟩ := hslot i him
        refine ⟨range', known, ?_, hrest⟩
        simp only [if_pos him]
        rw [getElem?_moves_move, if_pos (hsmall i him), hget]
      · obtain ⟨step, hstep, hlies⟩ := hin i (not_lt.mp him) hi
        refine ⟨range, h.tracker.nSeenSteps, ?_, (List.getElem?_eq_some_iff.mp hstep).1, step, hstep, hlies⟩
        simp only [if_neg him]
        rw [getElem?_moves_move, if_neg (lt_irrefl _), if_pos rfl]

/-- A range that is explored only adds steps that no move has seen. -/
theorem placeable_explore (hrec : h.Recorded) : (h.explore range).Placeable n ↔ h.Placeable n := by
  have hstepIn : ∀ {m : BlockRange × ℕ} {i}, m ∈ h.moves → i < m.2 →
      ((h.explore range).StepIn m.1 i ↔ h.StepIn m.1 i) := by
    intro m i hm hi
    rw [StepIn, seenSteps_explore, getElem?_append_left (hi.trans_le (hrec.known_le m hm))]
    rfl
  constructor
  · rintro ⟨slot, hmono, hslot⟩
    refine ⟨slot, hmono, fun i hi => ?_⟩
    obtain ⟨range', known, hget, hknown, hin⟩ := hslot i hi
    exact ⟨range', known, hget, hknown, (hstepIn (mem_of_getElem? hget) hknown).mp hin⟩
  · rintro ⟨slot, hmono, hslot⟩
    refine ⟨slot, hmono, fun i hi => ?_⟩
    obtain ⟨range', known, hget, hknown, hin⟩ := hslot i hi
    exact ⟨range', known, hget, hknown, (hstepIn (mem_of_getElem? hget) hknown).mpr hin⟩

theorem le_length_takeWhile {α : Type} {p : α → Bool} : ∀ {l : List α} {k : ℕ},
    (∀ i < k, ∃ a, l[i]? = some a ∧ p a) → k ≤ (l.takeWhile p).length
  | _, 0, _ => zero_le _
  | [], k + 1, hall => by
    obtain ⟨a, ha, -⟩ := hall 0 (succ_pos k)
    cases ha
  | a :: l, k + 1, hall => by
    obtain ⟨a', ha', hp⟩ := hall 0 (succ_pos k)
    obtain rfl : a = a' := by simpa using ha'
    rw [takeWhile_cons, if_pos hp, length_cons]
    exact succ_le_succ (le_length_takeWhile fun i hi => hall (i + 1) (succ_lt_succ hi))

/-! ### A whole run -/

/-- What holds along the calls: as many steps are passed as can be placed, those of the ranges moved over
    among them. -/
structure Progress (h : History) : Prop where
  recorded : h.Recorded
  greatest : IsGreatest {n | h.Placeable n} h.tracker.nStepsExcludingLookahead
  passed : h.Placeable h.passed.length

theorem progress_start : (start inputSteps).Progress where
  recorded := recorded_start inputSteps
  greatest := by
    refine ⟨⟨id, by simp [start, new], by simp [start, new]⟩, ?_⟩
    rintro (_ | n) ⟨slot, -, hslot⟩
    · exact le_rfl
    · obtain ⟨_, _, hget, -⟩ := hslot n (lt_succ_self n)
      simp [start] at hget
  passed := ⟨id, by simp [passed, start], by simp [passed, start]⟩

theorem Placeable.le_nSeenSteps (hplace : h.Placeable n) : n ≤ h.tracker.nSeenSteps := by
  obtain ⟨slot, -, hslot⟩ := hplace
  cases n with
  | zero => exact zero_le _
  | succ n =>
    obtain ⟨_, _, -, -, step, hstep, -⟩ := hslot n (lt_succ_self n)
    exact (List.getElem?_eq_some_iff.mp hstep).1

theorem Progress.explore (hprog : h.Progress) (range : BlockRange) : (h.explore range).Progress := by
  refine ⟨hprog.recorded.explore range, ?_, ?_⟩
  · simp only [placeable_explore hprog.recorded]
    exact hprog.greatest
  · rw [placeable_explore hprog.recorded, History.passed, History.explore,
      take_append_of_le_length hprog.recorded.moves_le]
    exact hprog.passed

theorem Progress.move (hprog : h.Progress)
    (hnext : h.explored[h.moves.length]? = some p) : (h.move p.1).Progress := by
  have hrec := hprog.recorded
  obtain ⟨hcount, hmax⟩ := hprog.greatest
  have hmove := nStepsExcludingLookahead_moveForward h.tracker p.1
    (Placeable.le_nSeenSteps hcount)
  refine ⟨hrec.move hnext, ⟨?_, fun n hn => ?_⟩, ?_⟩
  · -- what was passed before, then what lies in the range
    refine placeable_move.mpr ⟨_, ?_, hcount, fun i hle hi => ?_⟩
    · rw [History.move, hmove]
      exact le_add_right _ _
    · rw [History.move, hmove] at hi
      obtain ⟨k, rfl⟩ := Nat.exists_eq_add_of_le hle
      have hk := lt_of_add_lt_add_left hi
      have hget := getElem?_eq_getElem hk
      have hlies := mem_takeWhile_imp (getElem_mem hk)
      refine ⟨_, ?_, of_decide_eq_true hlies⟩
      rw [← getElem?_drop, ← hget]
      obtain ⟨rest, hrest⟩ := takeWhile_prefix (l :=
        h.tracker.seenSteps.drop h.tracker.nStepsExcludingLookahead) fun s => decide (LiesIn p.1 s)
      conv_lhs => rw [← hrest]
      exact getElem?_append_left hk
  · obtain ⟨m, -, hbefore, hin⟩ := placeable_move.mp hn
    have hm := hmax hbefore
    rw [History.move, hmove]
    have hrest := le_length_takeWhile (p := fun s => decide (LiesIn p.1 s))
      (l := h.tracker.seenSteps.drop h.tracker.nStepsExcludingLookahead)
      (k := n - h.tracker.nStepsExcludingLookahead) fun i hi => by
        obtain ⟨step, hstep, hlies⟩ := hin (h.tracker.nStepsExcludingLookahead + i)
          (hm.trans (le_add_right _ _)) (by omega)
        exact ⟨step, by rw [getElem?_drop, hstep], decide_eq_true hlies⟩
    omega
  · -- the steps of the range itself lie in it
    have hcut : h.explored = h.explored.take h.moves.length ++
        p :: h.explored.drop (h.moves.length + 1) := by
      obtain ⟨hlt, hget⟩ := List.getElem?_eq_some_iff.mp hnext
      conv_lhs => rw [← List.take_append_drop h.moves.length h.explored]
      rw [List.drop_eq_getElem_cons hlt, hget]
    have hseen : h.tracker.seenSteps =
        h.passed ++ (p.2 ++ (h.explored.drop (h.moves.length + 1)).flatMap (·.2)) := by
      rw [hrec.seenSteps_eq]
      conv_lhs => rw [hcut]
      rw [flatMap_append, flatMap_cons, History.passed]
    have hpassed : (h.move p.1).passed = h.passed ++ p.2 := by
      rw [History.passed, History.move, length_append, length_singleton, take_add_one,
        hnext, flatMap_append, History.passed]
      simp
    rw [hpassed, length_append]
    refine placeable_move.mpr ⟨_, le_add_right _ _, hprog.passed, fun i hle hi => ?_⟩
    obtain ⟨k, rfl⟩ := Nat.exists_eq_add_of_le hle
    have hk := lt_of_add_lt_add_left hi
    refine ⟨p.2[k], ?_, hrec.liesIn p (mem_of_getElem? hnext) _ (getElem_mem hk)⟩
    rw [hseen, getElem?_append_right hle, Nat.add_sub_cancel_left, getElem?_append_left hk,
      getElem?_eq_getElem hk]

theorem run_append (calls : List Call) (c : Call) :
    run inputSteps (calls ++ [c]) = (run inputSteps calls).bind (·.call c) := by
  rw [run, foldlM_append, ← run, bind_eq_bind]
  simp

variable {inputSteps : List ExplorerStep} {calls : List Call}

theorem progress_run (hrun : run inputSteps calls = some h) : h.Progress := by
  induction calls using reverseRecOn generalizing h with
  | nil =>
    cases hrun
    exact progress_start inputSteps
  | append_singleton calls c ih =>
    rw [run_append, bind_eq_some_iff] at hrun
    obtain ⟨h₀, hrun₀, hcall⟩ := hrun
    cases c with
    | explore range =>
      cases hcall
      exact (ih hrun₀).explore range
    | move =>
      obtain ⟨p, hnext, rfl⟩ := map_eq_some_iff.mp hcall
      exact (ih hrun₀).move hnext

/-- After any calls the number of steps out of the lookahead is the number of those registered by the ranges
    moved over, exactly when these cannot be placed in the moves together with one more. -/
theorem nStepsExcludingLookahead_eq_iff {h : History} (hrun : run inputSteps calls = some h) :
    h.tracker.nStepsExcludingLookahead = h.passed.length ↔ ¬ h.Placeable (h.passed.length + 1) := by
  obtain ⟨-, hgreatest, hpassed⟩ := progress_run hrun
  constructor
  · intro heq hmore
    have hle := hgreatest.2 hmore
    omega
  · intro hmore
    refine le_antisymm (not_lt.mp fun hlt => ?_) (hgreatest.2 hpassed)
    exact hmore (hgreatest.1.mono hlt)

/-- Two steps on block 0, the second one before the first. -/
def backwardSteps : List ExplorerStep := [⟨[⟨0, 8⟩], false, none⟩, ⟨[⟨0, 3⟩], false, none⟩]

def wholeBlock (block : BlockId) : BlockRange := ⟨block, 0, 10, by decide⟩

/-- Passed once, block 0 has the first of them only. -/
theorem nStepsExcludingLookahead_firstPass :
    let h := ((start backwardSteps).explore (wholeBlock 0)).move (wholeBlock 0)
    run backwardSteps [.explore (wholeBlock 0), .move] = some h ∧
      h.tracker.nStepsExcludingLookahead = 1 ∧ ¬ h.Placeable 2 :=
  ⟨rfl, rfl, (@nStepsExcludingLookahead_eq_iff backwardSteps [.explore (wholeBlock 0), .move] _ rfl).mp rfl⟩

/-- The second step is registered when block 0 comes again, but moving over the block the first time passes
    both. -/
theorem nStepsExcludingLookahead_repeatedBlock :
    let calls : List Call := [.explore (wholeBlock 0), .explore (wholeBlock 1),
      .explore (wholeBlock 0), .move]
    (run backwardSteps calls).map (fun h => (h.tracker.nStepsExcludingLookahead, h.passed.length)) =
      some (2, 1) := by
  decide

end History

end Osrd.Stdcm.StepTracker
