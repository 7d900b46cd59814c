import Mathlib.Data.Finset.Card
import Mathlib.Tactic.Linarith

/-! Closed intervals merged by one pass over their begin and end events.

    The pass counts the open intervals. It starts a group when the count leaves 0 and cuts it when the count
    is back at 0. Events are sorted by time, and at one time the begins come before the ends; so an interval
    that begins where another ends still joins its group, and the groups are strictly apart.

    The invariant (`Swept`) is read off the events still to come: an item is open when its end is among them
    and its begin is not. -/

namespace IntervalSweep

open List

variable {ι T : Type} [LinearOrder T]

/-- An interval made of several, with these as its members. -/
structure Merged (ι T : Type) where
  first : T
  last : T
  members : List ι

structure State (ι T : Type) where
  count : ℤ
  beginning : T
  group : List ι
  merged : List (Merged ι T)

section Sweep

variable (start stop : ι → T)

/-- One event: the begin (`true`) or the end of an item. -/
def step (st : State ι T) : Bool × ι → State ι T
  | (true, i) =>
      ⟨st.count + 1, if st.count + 1 = 1 then start i else st.beginning, st.group ++ [i], st.merged⟩
  | (false, i) =>
      if 0 < st.count - 1 then { st with count := st.count - 1 }
      else ⟨st.count - 1, st.beginning, [], st.merged ++ [⟨st.beginning, stop i, st.group⟩]⟩

def time (e : Bool × ι) : T := if e.1 then start e.2 else stop e.2

/-- The order of the events; an end is not before a begin at the same time. -/
def Before (e f : Bool × ι) : Prop :=
  time start stop e < time start stop f ∨
    time start stop e = time start stop f ∧ (e.1 = true ∨ f.1 = false)

/-- The events of the items, in order. -/
structure Events (items : List ι) (es : List (Bool × ι)) : Prop where
  nodup : es.Nodup
  mem_iff : ∀ b i, (b, i) ∈ es ↔ i ∈ items
  ordered : es.Pairwise (Before start stop)

/-- The members cover the interval from `first` to `last`, and do not begin before it. -/
structure Spans (first last : T) (members : List ι) : Prop where
  le_start : ∀ i ∈ members, first ≤ start i
  cover : ∀ x, first ≤ x → x ≤ last → ∃ i ∈ members, start i ≤ x ∧ x ≤ stop i

/-- The items merged: each in one group, which is the interval they cover, and the groups strictly apart,
    in order. -/
structure Merges (items : List ι) (merged : List (Merged ι T)) : Prop where
  perm : (merged.flatMap (·.members)).Perm items
  spans : ∀ m ∈ merged, Spans start stop m.first m.last m.members
  stop_le : ∀ m ∈ merged, ∀ i ∈ m.members, stop i ≤ m.last
  le : ∀ m ∈ merged, m.first ≤ m.last
  apart : merged.Pairwise fun m m' => m.last < m'.first

/-! ### The invariant -/

/-- The group that is open at time `τ`, with the events `todo` still to come. -/
structure Running (todo : List (Bool × ι)) (beginning : T) (group : List ι) (τ : T) : Prop where
  beginning_le : beginning ≤ τ
  le_time : ∀ e ∈ todo, τ ≤ time start stop e
  start_le : ∀ i ∈ group, start i ≤ τ
  stop_le : ∀ i ∈ group, (false, i) ∉ todo → stop i ≤ τ
  spans : Spans start stop beginning τ group

structure Swept (items : List ι) (todo : List (Bool × ι)) (st : State ι T) : Prop where
  /-- The count is that of the items whose begin has come and whose end has not. -/
  counted : ∃ opened : Finset ι, st.count = opened.card ∧
    ∀ i, i ∈ opened ↔ i ∈ items ∧ (true, i) ∉ todo ∧ (false, i) ∈ todo
  begun : ∀ i, i ∈ st.merged.flatMap (·.members) ++ st.group ↔ i ∈ items ∧ (true, i) ∉ todo
  nodup : (st.merged.flatMap (·.members) ++ st.group).Nodup
  closed : ∀ i ∈ st.merged.flatMap (·.members), (false, i) ∉ todo
  idle : st.count = 0 → st.group = []
  running : st.group ≠ [] → ∃ τ, Running start stop todo st.beginning st.group τ
  spans : ∀ m ∈ st.merged, Spans start stop m.first m.last m.members
  stop_le : ∀ m ∈ st.merged, ∀ i ∈ m.members, stop i ≤ m.last
  le : ∀ m ∈ st.merged, m.first ≤ m.last
  apart : st.merged.Pairwise fun m m' => m.last < m'.first
  apart_group : st.group ≠ [] → ∀ m ∈ st.merged, m.last < st.beginning
  apart_todo : ∀ m ∈ st.merged, ∀ i, (true, i) ∈ todo → m.last < start i

variable {start stop} {items : List ι} {todo : List (Bool × ι)} {st : State ι T} {i : ι}

theorem Before.time_le {e f : Bool × ι} (h : Before start stop e f) :
    time start stop e ≤ time start stop f := by
  rcases h with hlt | ⟨heq, -⟩
  · exact hlt.le
  · exact heq.le

theorem Before.stop_lt_start {j : ι} (h : Before start stop (false, i) (true, j)) :
    stop i < start j := by
  rcases h with hlt | ⟨-, h | h⟩
  · exact hlt
  · cases h
  · cases h

/-- What is known of the events still to come: they are in order, and an item ends after it begins. -/
structure Todo (start stop : ι → T) (items : List ι) (todo : List (Bool × ι)) : Prop where
  nodup : todo.Nodup
  mem_items : ∀ b i, (b, i) ∈ todo → i ∈ items
  ordered : todo.Pairwise (Before start stop)
  ends : ∀ i, (true, i) ∈ todo → (false, i) ∈ todo

variable {es : List (Bool × ι)}

theorem Events.toTodo (h : Events start stop items es) : Todo start stop items es where
  nodup := h.nodup
  mem_items b i hi := (h.mem_iff b i).mp hi
  ordered := h.ordered
  ends i hi := (h.mem_iff false i).mpr ((h.mem_iff true i).mp hi)

/-- The next event is the begin of an item whose end is still to come, or the end of one whose begin is
    not. -/
theorem Todo.tail (hle : ∀ i ∈ items, start i ≤ stop i) {e : Bool × ι}
    (h : Todo start stop items (e :: todo)) :
    Todo start stop items todo ∧ (∀ f ∈ todo, Before start stop e f) ∧ e ∉ todo ∧
      (e.1 = true → (false, e.2) ∈ todo) ∧ (e.1 = false → (true, e.2) ∉ todo) := by
  obtain ⟨hbefore, hordered⟩ := pairwise_cons.mp h.ordered
  obtain ⟨hnot, hnodup⟩ := nodup_cons.mp h.nodup
  -- an end does not come before the begin of its item
  have hfalse : e.1 = false → (true, e.2) ∉ todo := by
    intro he hmem
    have hlt := @Before.stop_lt_start ι T _ start stop e.2 e.2 (by
      rw [← he]
      exact hbefore _ hmem)
    exact absurd (hle e.2 (h.mem_items true e.2 (mem_cons_of_mem _ hmem))) hlt.not_ge
  have hends : ∀ i, (true, i) ∈ e :: todo → (false, i) ∈ todo := by
    intro i hi
    rcases mem_cons.mp (h.ends i hi) with heq | hmem
    · rcases mem_cons.mp hi with heq' | hi
      · cases heq.trans heq'.symm
      · exact absurd hi (by
          have := hfalse (by rw [← heq])
          rwa [← heq] at this)
    · exact hmem
  refine ⟨⟨hnodup, fun b i hi => h.mem_items b i (mem_cons_of_mem _ hi), hordered,
    fun i hi => hends i (mem_cons_of_mem _ hi)⟩, hbefore, hnot, fun he => ?_, hfalse⟩
  refine hends e.2 ?_
  rw [← he]
  exact mem_cons_self

/-! ### One event -/

/-- While an item is open, its group reaches up to the next event. -/
theorem Running.advance {beginning τ : T} {group : List ι} {e : Bool × ι}
    (h : Running start stop (e :: todo) beginning group τ)
    (hbefore : ∀ f ∈ todo, Before start stop e f) {o : ι} (ho : o ∈ group) (hopen : (false, o) ∈ e :: todo) :
    Running start stop (e :: todo) beginning group (time start stop e) := by
  have hτ := h.le_time e mem_cons_self
  have hstop : time start stop e ≤ stop o := by
    rcases mem_cons.mp hopen with rfl | hopen
    · exact le_rfl
    · exact (hbefore _ hopen).time_le
  refine ⟨h.beginning_le.trans hτ, fun f hf => ?_, fun i hi => (h.start_le i hi).trans hτ,
    fun i hi hend => (h.stop_le i hi hend).trans hτ, h.spans.le_start, fun x hx hle => ?_⟩
  · rcases mem_cons.mp hf with rfl | hf
    · exact le_rfl
    · exact (hbefore f hf).time_le
  · rcases le_total x τ with hxτ | hτx
    · exact h.spans.cover x hx hxτ
    · exact ⟨o, ho, (h.start_le o ho).trans hτx, hle.trans hstop⟩

theorem Swept.begin_item (hle : ∀ i ∈ items, start i ≤ stop i)
    (htodo : Todo start stop items ((true, i) :: todo)) (h : Swept start stop items ((true, i) :: todo) st) :
    Swept start stop items todo (step start stop st (true, i)) := by
  classical
  obtain ⟨-, hbefore, hnot, hend, -⟩ := htodo.tail hle
  have hend := hend rfl
  have hitem := htodo.mem_items true i mem_cons_self
  obtain ⟨opened, hcount, hopened⟩ := h.counted
  have hi : i ∉ st.merged.flatMap (·.members) ++ st.group := by
    rw [h.begun]
    simp
  have hfirst : ∀ m ∈ st.merged, m.last < start i := fun m hm => h.apart_todo m hm i mem_cons_self
  have htrue : ∀ j, (true, j) ∉ todo ↔ (true, j) ∉ (true, i) :: todo ∨ j = i := by
    intro j
    by_cases hji : j = i
    · simp [hji, hnot]
    · simp [hji]
  have hfalse : ∀ j, (false, j) ∈ todo ↔ (false, j) ∈ (true, i) :: todo := by simp
  -- a group starts here, or the open one goes on
  have hgroup : ∃ τ, Running start stop todo (if st.count + 1 = 1 then start i else st.beginning)
      (st.group ++ [i]) τ ∧
      ∀ m ∈ st.merged, m.last < if st.count + 1 = 1 then start i else st.beginning := by
    by_cases hzero : st.count = 0
    · rw [if_pos (by omega), h.idle hzero]
      refine ⟨start i, ⟨le_rfl, fun f hf => (hbefore f hf).time_le, by simp, ?_, by simp, ?_⟩, hfirst⟩
      · intro j hj hjend
        exact absurd hend (mem_singleton.mp hj ▸ hjend)
      · exact fun x hx hxle => ⟨i, by simp, hx, hxle.trans (hle i hitem)⟩
    · rw [if_neg (by omega)]
      obtain ⟨o, ho⟩ : opened.Nonempty := by
        rw [← Finset.card_pos]
        omega
      obtain ⟨hoitem, hobegun, hoend⟩ := (hopened o).mp ho
      have hogroup : o ∈ st.group := by
        rcases mem_append.mp ((h.begun o).mpr ⟨hoitem, hobegun⟩) with hmem | hmem
        · exact absurd hoend (h.closed o hmem)
        · exact hmem
      obtain ⟨τ, hrun⟩ := h.running (ne_nil_of_mem hogroup)
      have hnext := hrun.advance hbefore hogroup hoend
      refine ⟨start i, ⟨hnext.beginning_le, (forall_mem_cons.mp hnext.le_time).2,
        ?_, ?_, ?_, ?_⟩, h.apart_group (ne_nil_of_mem hogroup)⟩
      · intro j hj
        rcases mem_append.mp hj with hj | hj
        · exact hnext.start_le j hj
        · exact (mem_singleton.mp hj ▸ le_rfl)
      · intro j hj hjend
        rcases mem_append.mp hj with hj | hj
        · exact hnext.stop_le j hj (by simpa using hjend)
        · exact absurd hend (mem_singleton.mp hj ▸ hjend)
      · intro j hj
        rcases mem_append.mp hj with hj | hj
        · exact hnext.spans.le_start j hj
        · exact mem_singleton.mp hj ▸ hnext.beginning_le
      · intro x hx hxle
        obtain ⟨j, hj, hcover⟩ := hnext.spans.cover x hx hxle
        exact ⟨j, mem_append_left _ hj, hcover⟩
  obtain ⟨τ, hrun, hapart⟩ := hgroup
  constructor
  case counted =>
    have hfresh : i ∉ opened := fun hmem => hi ((h.begun i).mpr
      ⟨hitem, ((hopened i).mp hmem).2.1⟩)
    refine ⟨insert i opened, ?_, fun j => ?_⟩
    · rw [Finset.card_insert_of_notMem hfresh]
      simp only [step]
      omega
    · rw [Finset.mem_insert, hopened, htrue, hfalse]
      constructor
      · rintro (rfl | ⟨hj, hbegun, hjend⟩)
        · exact ⟨hitem, .inr rfl, by simpa using hend⟩
        · exact ⟨hj, .inl hbegun, hjend⟩
      · rintro ⟨hj, hbegun | rfl, hjend⟩
        · exact .inr ⟨hj, hbegun, hjend⟩
        · exact .inl rfl
  case begun =>
    intro j
    rw [step, ← append_assoc, mem_append, h.begun, htrue, mem_singleton]
    constructor
    · rintro (⟨hj, hbegun⟩ | rfl)
      · exact ⟨hj, .inl hbegun⟩
      · exact ⟨hitem, .inr rfl⟩
    · rintro ⟨hj, hbegun | rfl⟩
      · exact .inl ⟨hj, hbegun⟩
      · exact .inr rfl
  case nodup =>
    rw [step, ← append_assoc]
    refine nodup_append.mpr ⟨h.nodup, nodup_singleton i, fun j hj k hk => ?_⟩
    rw [mem_singleton.mp hk]
    exact fun heq => hi (heq ▸ hj)
  case closed => exact fun j hj => by simpa using h.closed j hj
  case idle =>
    simp only [step]
    omega
  case running => exact fun _ => ⟨τ, hrun⟩
  case spans => exact h.spans
  case stop_le => exact h.stop_le
  case le => exact h.le
  case apart => exact h.apart
  case apart_group => exact fun _ => hapart
  case apart_todo => exact fun m hm j hj => h.apart_todo m hm j (mem_cons_of_mem _ hj)

theorem Swept.end_item (hle : ∀ i ∈ items, start i ≤ stop i)
    (htodo : Todo start stop items ((false, i) :: todo))
    (h : Swept start stop items ((false, i) :: todo) st) :
    Swept start stop items todo (step start stop st (false, i)) := by
  classical
  obtain ⟨-, hbefore, hnot, -, hbegun⟩ := htodo.tail hle
  have hitem := htodo.mem_items false i mem_cons_self
  obtain ⟨opened, hcount, hopened⟩ := h.counted
  have htrue : ∀ j, (true, j) ∉ todo ↔ (true, j) ∉ (false, i) :: todo := by simp
  have hiopen : i ∈ opened := (hopened i).mpr ⟨hitem, by simpa using hbegun, mem_cons_self⟩
  have higroup : i ∈ st.group := by
    rcases mem_append.mp ((h.begun i).mpr ⟨hitem, by simpa using hbegun⟩) with hmem | hmem
    · exact absurd mem_cons_self (h.closed i hmem)
    · exact hmem
  obtain ⟨τ, hrun⟩ := h.running (ne_nil_of_mem higroup)
  have hnext := hrun.advance hbefore higroup mem_cons_self
  have hcounted : ∃ opened' : Finset ι, st.count - 1 = opened'.card ∧
      ∀ j, j ∈ opened' ↔ j ∈ items ∧ (true, j) ∉ todo ∧ (false, j) ∈ todo := by
    refine ⟨opened.erase i, ?_, fun j => ?_⟩
    · have hpos : 0 < opened.card := Finset.card_pos.mpr ⟨i, hiopen⟩
      rw [Finset.card_erase_of_mem hiopen]
      omega
    · rw [Finset.mem_erase, hopened, htrue]
      constructor
      · rintro ⟨hji, hj, hjbegun, hjend⟩
        exact ⟨hj, hjbegun, by simpa [hji] using hjend⟩
      · rintro ⟨hj, hjbegun, hjend⟩
        refine ⟨fun heq => hnot (heq ▸ hjend), hj, hjbegun, mem_cons_of_mem _ hjend⟩
  -- an item of the group has ended by now unless its end is still to come
  have hstop : ∀ j ∈ st.group, (false, j) ∉ todo → stop j ≤ stop i := by
    intro j hj hjend
    by_cases hji : j = i
    · exact hji ▸ le_rfl
    · exact hnext.stop_le j hj (by simpa [hji] using hjend)
  by_cases hmore : 0 < st.count - 1
  · have hstep : step start stop st (false, i) = { st with count := st.count - 1 } := by
      rw [step, if_pos hmore]
    rw [hstep]
    exact {
      counted := hcounted
      begun := fun j => by rw [htrue]; exact h.begun j
      nodup := h.nodup
      closed := fun j hj hmem => h.closed j hj (mem_cons_of_mem _ hmem)
      idle := fun hzero => absurd hmore (by simp only at hzero; omega)
      running := fun _ => ⟨stop i, hnext.beginning_le,
        (forall_mem_cons.mp hnext.le_time).2, hnext.start_le, hstop, hnext.spans⟩
      spans := h.spans
      stop_le := h.stop_le
      le := h.le
      apart := h.apart
      apart_group := h.apart_group
      apart_todo := fun m hm j hj => h.apart_todo m hm j (mem_cons_of_mem _ hj) }
  · -- the last open item ends, and so does the group
    have hstep : step start stop st (false, i) = ⟨st.count - 1, st.beginning, [],
        st.merged ++ [⟨st.beginning, stop i, st.group⟩]⟩ := by
      rw [step, if_neg hmore]
    obtain ⟨opened', hcount', hopened'⟩ := hcounted
    have hempty : opened' = ∅ := by
      rw [← Finset.card_eq_zero]
      omega
    have hclosed : ∀ j ∈ st.group, (false, j) ∉ todo := by
      intro j hj hjend
      obtain ⟨hjitem, hjbegun⟩ := (h.begun j).mp (mem_append_right _ hj)
      have hjopen := (hopened' j).mpr ⟨hjitem, (htrue j).mpr hjbegun, hjend⟩
      rw [hempty] at hjopen
      simp at hjopen
    have hmembers : (st.merged ++ [(⟨st.beginning, stop i, st.group⟩ : Merged ι T)]).flatMap
        (·.members) = st.merged.flatMap (·.members) ++ st.group := by
      simp
    have hnew : ∀ {P : Merged ι T → Prop}, (∀ m ∈ st.merged, P m) →
        P ⟨st.beginning, stop i, st.group⟩ →
        ∀ m ∈ st.merged ++ [⟨st.beginning, stop i, st.group⟩], P m := by
      intro P hold hlast m hm
      rcases mem_append.mp hm with hm | hm
      · exact hold m hm
      · exact mem_singleton.mp hm ▸ hlast
    rw [hstep]
    exact {
      counted := ⟨opened', hcount', hopened'⟩
      begun := fun j => by rw [hmembers, append_nil, htrue]; exact h.begun j
      nodup := by rw [hmembers, append_nil]; exact h.nodup
      closed := by
        intro j hj
        rw [hmembers] at hj
        rcases mem_append.mp hj with hj | hj
        · exact fun hmem => h.closed j hj (mem_cons_of_mem _ hmem)
        · exact hclosed j hj
      idle := fun _ => rfl
      running := fun hne => absurd rfl hne
      spans := hnew h.spans hnext.spans
      stop_le := hnew h.stop_le fun j hj => hstop j hj (hclosed j hj)
      le := hnew h.le hnext.beginning_le
      apart := pairwise_append.mpr ⟨h.apart, pairwise_singleton _ _, fun m hm m' hm' =>
        mem_singleton.mp hm' ▸ h.apart_group (ne_nil_of_mem higroup) m hm⟩
      apart_group := fun hne => absurd rfl hne
      apart_todo := hnew (fun m hm j hj => h.apart_todo m hm j (mem_cons_of_mem _ hj))
        fun j hj => (hbefore _ hj).stop_lt_start }

/-! ### All the events -/

theorem Swept.foldl (hle : ∀ i ∈ items, start i ≤ stop i) : ∀ {todo : List (Bool × ι)} {st : State ι T},
    Todo start stop items todo → Swept start stop items todo st →
    Swept start stop items [] (todo.foldl (step start stop) st)
  | [], _, _, h => h
  | (true, i) :: todo, st, htodo, h => by
    rw [foldl_cons]
    exact foldl hle (htodo.tail hle).1 (h.begin_item hle htodo)
  | (false, i) :: todo, st, htodo, h => by
    rw [foldl_cons]
    exact foldl hle (htodo.tail hle).1 (h.end_item hle htodo)

theorem Swept.init (hes : Events start stop items es) (beginning : T) :
    Swept start stop items es ⟨0, beginning, [], []⟩ where
  counted := ⟨∅, rfl, fun i => by simp [hes.mem_iff]⟩
  begun := by simp [hes.mem_iff]
  nodup := nodup_nil
  closed := by simp
  idle := fun _ => rfl
  running := fun hne => absurd rfl hne
  spans := by simp
  stop_le := by simp
  le := by simp
  apart := .nil
  apart_group := by simp
  apart_todo := by simp

/-- The pass merges the items. -/
theorem merges_foldl (hes : Events start stop items es) (hnodup : items.Nodup)
    (hle : ∀ i ∈ items, start i ≤ stop i) (beginning : T) :
    Merges start stop items (es.foldl (step start stop) ⟨0, beginning, [], []⟩).merged := by
  have h := (Swept.init hes beginning).foldl hle hes.toTodo
  obtain ⟨opened, hcount, hopened⟩ := h.counted
  have hempty : opened = ∅ := Finset.eq_empty_of_forall_notMem fun i hi => by
    simpa using ((hopened i).mp hi).2.2
  rw [hempty, Finset.card_empty, Nat.cast_zero] at hcount
  have hnil := h.idle hcount
  have hbegun := h.begun
  have hdistinct := h.nodup
  rw [hnil, append_nil] at hbegun hdistinct
  refine ⟨(perm_ext_iff_of_nodup hdistinct hnodup).mpr fun i => ?_, h.spans, h.stop_le, h.le, h.apart⟩
  simpa using hbegun i

end Sweep

end IntervalSweep
