import Mathlib
import Osrd.Conflicts.ZoneUses
import Osrd.Lib.HashTable
import Osrd.Lib.IntervalSweep
import Osrd.Lib.ListsByKey

/-! Model of `mergeConflicts` (`core/.../conflicts/Conflicts.kt`): conflicts between the same trains and work
    schedules are merged when their times meet.

    The conflicts of each type are grouped in a hash table by their two sets of ids. In each group a sweep
    over the begin and end events counts the open conflicts and makes one conflict of those that come
    between two returns of the count to 0, with the requirements collected on the way. The sweep is the
    general one of `IntervalSweep` with the conflicts as items; a conflict may be listed twice, so an item is
    a conflict with its place in the list. -/

namespace Osrd.Conflicts

open IntervalSweep
open List (mem_flatMap mem_map flatMap_map mem_map_of_mem)

/-! ### The code -/

inductive ConflictType
  | SPACING
  | ROUTING
deriving DecidableEq

structure ConflictRequirement (Time : Type) where
  zone : ZoneId
  startTime : Time
  endTime : Time

structure Conflict (Time : Type) where
  startTime : Time
  endTime : Time
  conflictType : ConflictType
  requirements : List (ConflictRequirement Time)
  trainIds : List String
  workScheduleIds : List String

inductive EventType
  | BEGIN
  | END
deriving DecidableEq

structure Event (Time : Type) where
  eventType : EventType
  time : Time
  requirements : List (ConflictRequirement Time)

/-- Two sets of ids, each listed in the order in which it was filled. -/
structure ConflictingGroupKey where
  trainIds : List String
  workScheduleIds : List String

/-- The data class compares the sets. -/
def ConflictingGroupKey.sets (key : ConflictingGroupKey) : Finset String × Finset String :=
  (key.trainIds.toFinset, key.workScheduleIds.toFinset)

section Model

variable {Time : Type} [LinearOrder Time]

/-- By time; at one time the begins come first. -/
def Event.compareTo (this other : Event Time) : Ordering :=
  match compare this.time other.time with
  | .eq =>
      if this.eventType = other.eventType then .eq
      else
        match this.eventType with
        | .BEGIN => .lt
        | .END => .gt
  | timeDelta => timeDelta

instance : DecidableRel fun a b : Event Time => a.compareTo b ≠ .gt :=
  fun _ _ => inferInstanceAs (Decidable (¬ _))

/-- `events.sort()`, a stable sort. -/
def sortEvents (events : List (Event Time)) : List (Event Time) :=
  events.insertionSort fun a b => a.compareTo b ≠ .gt

/-- The variables of the sweep over the events of one group. -/
structure EventSweep (Time : Type) where
  eventCount : ℤ
  eventBeginning : Time
  conflictReqs : List (ConflictRequirement Time)
  newConflicts : List (Conflict Time)

/-- One event of the sweep. -/
def sweepEvent (conflictType : ConflictType) (key : ConflictingGroupKey) (st : EventSweep Time)
    (event : Event Time) : EventSweep Time :=
  match event.eventType with
  | .BEGIN =>
      let eventCount := st.eventCount + 1
      ⟨eventCount, if eventCount = 1 then event.time else st.eventBeginning,
        st.conflictReqs ++ event.requirements, st.newConflicts⟩
  | .END =>
      let eventCount := st.eventCount - 1
      if 0 < eventCount then { st with eventCount }
      else
        ⟨eventCount, st.eventBeginning, [], st.newConflicts ++
          [⟨st.eventBeginning, event.time, conflictType, st.conflictReqs, key.trainIds,
            key.workScheduleIds⟩]⟩

def eventsOf (conflicts : List (Conflict Time)) : List (Event Time) :=
  conflicts.flatMap fun conflict =>
    [⟨.BEGIN, conflict.startTime, conflict.requirements⟩, ⟨.END, conflict.endTime, conflict.requirements⟩]

variable [Zero Time]

/-- The merged conflicts of one group. -/
def mergeGroup (conflictType : ConflictType)
    (group : ConflictingGroupKey × List (Conflict Time)) : List (Conflict Time) :=
  ((sortEvents (eventsOf group.2)).foldl (sweepEvent conflictType group.1) ⟨0, 0, [], []⟩).newConflicts

variable (visit : HashTable.Visit (ConflictingGroupKey × List (Conflict Time)))

/-- Sort and merge conflicts with overlapping time ranges; the hash table gives its groups in any order. -/
def mergeMap (resources : List (ConflictingGroupKey × List (Conflict Time))) (conflictType : ConflictType) :
    List (Conflict Time) :=
  (visit.order resources).flatMap (mergeGroup conflictType)

def conflictingGroupKey (conflict : Conflict Time) : ConflictingGroupKey :=
  ⟨conflict.trainIds.eraseDups, conflict.workScheduleIds.eraseDups⟩

/-- The conflicts of one type grouped by the sets of conflicting trains and work schedules
    (`spacingResources`, `routingResources`). -/
def resourcesOf (conflictType : ConflictType) (conflicts : List (Conflict Time)) :
    List (ConflictingGroupKey × List (Conflict Time)) :=
  ListsByKey.collect ConflictingGroupKey.sets
    ((conflicts.filter (·.conflictType = conflictType)).map fun c => (conflictingGroupKey c, c))

def mergeConflicts (conflicts : List (Conflict Time)) : List (Conflict Time) :=
  mergeMap visit (resourcesOf .SPACING conflicts) .SPACING ++
    mergeMap visit (resourcesOf .ROUTING conflicts) .ROUTING

end Model

/-! ### What merging means -/

section Spec

variable {Time : Type} [LinearOrder Time]

def Conflict.interval (c : Conflict Time) : Set Time := Set.Icc c.startTime c.endTime

/-- The conflict lies within the times of the other. -/
def Conflict.Within (c o : Conflict Time) : Prop :=
  o.startTime ≤ c.startTime ∧ c.endTime ≤ o.endTime

instance (c o : Conflict Time) : Decidable (c.Within o) := inferInstanceAs (Decidable (_ ∧ _))

/-- The outputs are disjoint closed intervals with the same union as the inputs; each carries the
    requirements of the inputs within it, and all together carry each of them once. -/
structure MergedInto (inputs outputs : List (Conflict Time)) : Prop where
  le : ∀ o ∈ outputs, o.startTime ≤ o.endTime
  disjoint : outputs.Pairwise fun a b => Disjoint a.interval b.interval
  union : ⋃ o ∈ outputs, o.interval = ⋃ c ∈ inputs, c.interval
  carries : ∀ o ∈ outputs, o.requirements.Perm
    ((inputs.filter fun c => c.Within o).flatMap (·.requirements))
  once : (outputs.flatMap (·.requirements)).Perm (inputs.flatMap (·.requirements))

end Spec

section Keys

variable {Time : Type}

/-- The conflict is of that type, between the trains and work schedules of the two sets. -/
def Conflict.HasKey (type : ConflictType) (ids : Finset String × Finset String) (c : Conflict Time) : Prop :=
  c.conflictType = type ∧ (c.trainIds.toFinset, c.workScheduleIds.toFinset) = ids

instance (type : ConflictType) (ids : Finset String × Finset String) (c : Conflict Time) :
    Decidable (c.HasKey type ids) :=
  inferInstanceAs (Decidable (_ ∧ _))

theorem sets_conflictingGroupKey (c : Conflict Time) :
    (conflictingGroupKey c).sets = (c.trainIds.toFinset, c.workScheduleIds.toFinset) := by
  have hdups : ∀ ids : List String, ids.eraseDups.toFinset = ids.toFinset := by
    intro ids
    ext id
    rw [List.mem_toFinset, List.mem_toFinset, List.mem_eraseDups]
  rw [ConflictingGroupKey.sets, conflictingGroupKey, hdups, hdups]

theorem resourcesOf_collected (type : ConflictType) (conflicts : List (Conflict Time)) :
    ListsByKey.Collected ConflictingGroupKey.sets
      ((conflicts.filter (·.conflictType = type)).map fun c => (conflictingGroupKey c, c))
      (resourcesOf type conflicts) :=
  ListsByKey.collected_collect _ _

/-- A group has the conflicts of its type and key, in order. -/
theorem mem_resourcesOf {type : ConflictType} {conflicts : List (Conflict Time)}
    {group : ConflictingGroupKey × List (Conflict Time)} (h : group ∈ resourcesOf type conflicts) :
    group.2 = conflicts.filter (fun c => c.HasKey type group.1.sets) ∧ group.2 ≠ [] := by
  obtain ⟨hvalues, hne⟩ := (resourcesOf_collected type conflicts).values group h
  refine ⟨?_, hne⟩
  rw [hvalues, ListsByKey.valuesOf, List.filter_map, List.map_map, List.filter_filter]
  have hid : (fun e : ConflictingGroupKey × Conflict Time => e.2) ∘
      (fun c => (conflictingGroupKey c, c)) = id := rfl
  rw [hid, List.map_id]
  refine List.filter_congr fun c _ => ?_
  rw [Bool.eq_iff_iff, decide_eq_true_iff]
  simp [Conflict.HasKey, sets_conflictingGroupKey, and_comm]

end Keys

/-! ### One group -/

section Items

variable {Time : Type}

/-- A conflict and its place in the list. -/
abbrev Item (Time : Type) := Conflict Time × ℕ

namespace Item

def start (i : Item Time) : Time := i.1.startTime

def stop (i : Item Time) : Time := i.1.endTime

def requirements (i : Item Time) : List (ConflictRequirement Time) := i.1.requirements

end Item

/-- The event of the code for one of the general sweep. -/
def toEvent (e : Bool × Item Time) : Event Time :=
  if e.1 then ⟨.BEGIN, e.2.start, e.2.requirements⟩ else ⟨.END, e.2.stop, e.2.requirements⟩

theorem toEvent_time (e : Bool × Item Time) : (toEvent e).time = time Item.start Item.stop e := by
  obtain ⟨b, i⟩ := e
  cases b <;> rfl

/-- The items of a list of conflicts, and their events. -/
def itemsOf (conflicts : List (Conflict Time)) : List (Item Time) := conflicts.zipIdx

def itemEvents (conflicts : List (Conflict Time)) : List (Bool × Item Time) :=
  (itemsOf conflicts).flatMap fun i => [(true, i), (false, i)]

variable (conflicts : List (Conflict Time))

theorem itemsOf_map_fst :
    (itemsOf conflicts).map (·.1) = conflicts := List.zipIdx_map_fst 0 conflicts

theorem itemsOf_nodup : (itemsOf conflicts).Nodup :=
  List.Nodup.of_map Prod.snd (by rw [itemsOf, List.zipIdx_map_snd]; exact List.nodup_range')

theorem map_toEvent_itemEvents :
    (itemEvents conflicts).map toEvent = eventsOf conflicts := by
  conv_rhs => rw [← itemsOf_map_fst conflicts]
  rw [itemEvents, eventsOf, List.map_flatMap, flatMap_map]
  rfl

/-- The state of the code for one of the general sweep. -/
def toConflict (type : ConflictType) (key : ConflictingGroupKey)
    (m : IntervalSweep.Merged (Item Time) Time) : Conflict Time :=
  ⟨m.first, m.last, type, m.members.flatMap Item.requirements, key.trainIds, key.workScheduleIds⟩

def toSweep (type : ConflictType) (key : ConflictingGroupKey)
    (st : IntervalSweep.State (Item Time) Time) : EventSweep Time :=
  ⟨st.count, st.beginning, st.group.flatMap Item.requirements, st.merged.map (toConflict type key)⟩

theorem sweepEvent_toSweep (type : ConflictType) (key : ConflictingGroupKey)
    (st : IntervalSweep.State (Item Time) Time) (e : Bool × Item Time) :
    sweepEvent type key (toSweep type key st) (toEvent e) =
      toSweep type key (step Item.start Item.stop st e) := by
  obtain ⟨b, i⟩ := e
  cases b with
  | true => simp [sweepEvent, toSweep, toEvent, step]
  | false =>
    simp only [sweepEvent, toSweep, toEvent, step, Bool.false_eq_true, if_false]
    split
    · rfl
    · simp [toConflict]

theorem foldl_sweepEvent (type : ConflictType) (key : ConflictingGroupKey) :
    ∀ (es : List (Bool × Item Time)) (st : IntervalSweep.State (Item Time) Time),
      (es.map toEvent).foldl (sweepEvent type key) (toSweep type key st) =
        toSweep type key (es.foldl (step Item.start Item.stop) st)
  | [], _ => rfl
  | e :: es, st => by
    rw [List.map_cons, List.foldl_cons, sweepEvent_toSweep, List.foldl_cons]
    exact foldl_sweepEvent type key es _

end Items

section Group

variable {Time : Type} [LinearOrder Time]

/-- The order of the events is that of the general sweep. -/
theorem compareTo_iff_before (e f : Bool × Item Time) : (toEvent e).compareTo (toEvent f) ≠ .gt ↔
      IntervalSweep.Before Item.start Item.stop e f := by
  rw [Event.compareTo, toEvent_time, toEvent_time, IntervalSweep.Before]
  have hlt := @compare_lt_iff_lt Time _ (time Item.start Item.stop e)
    (time Item.start Item.stop f)
  have heq := @compare_eq_iff_eq Time _ (time Item.start Item.stop e)
    (time Item.start Item.stop f)
  obtain ⟨b, i⟩ := e
  obtain ⟨b', j⟩ := f
  cases hcompare : compare (time Item.start Item.stop (b, i))
      (time Item.start Item.stop (b', j)) with
  | lt => simp [hlt.mp hcompare]
  | eq =>
    rw [← heq, hcompare, ← hlt, hcompare]
    cases b with
    | true =>
      cases b' <;> simp [toEvent]
    | false =>
      cases b' <;> simp [toEvent]
  | gt =>
    rw [← heq, hcompare, ← hlt, hcompare]
    simp

theorem before_total (e f : Bool × Item Time) : IntervalSweep.Before Item.start Item.stop e f ∨
    IntervalSweep.Before Item.start Item.stop f e := by
  rcases lt_trichotomy (time Item.start Item.stop e)
    (time Item.start Item.stop f) with hlt | heq | hlt
  · exact .inl (.inl hlt)
  · cases he : e.1 with
    | true => exact .inl (.inr ⟨heq, .inl he⟩)
    | false => exact .inr (.inr ⟨heq.symm, .inr he⟩)
  · exact .inr (.inl hlt)

theorem before_trans {e f g : Bool × Item Time} (h : IntervalSweep.Before Item.start Item.stop e f)
    (h' : IntervalSweep.Before Item.start Item.stop f g) :
    IntervalSweep.Before Item.start Item.stop e g := by
  rcases h with hlt | ⟨heq, hkind⟩
  · exact .inl (hlt.trans_le h'.time_le)
  · rcases h' with hlt' | ⟨heq', hkind'⟩
    · exact .inl (heq.trans_lt hlt')
    · refine .inr ⟨heq.trans heq', ?_⟩
      rcases hkind with he | hf
      · exact .inl he
      · exact .inr (hkind'.resolve_left (by simp [hf]))

open scoped Classical in
/-- The sorted events come from items, in the order of the general sweep. -/
theorem exists_sorted_items (conflicts : List (Conflict Time)) :
    ∃ es, es.map toEvent = sortEvents (eventsOf conflicts) ∧
      IntervalSweep.Events Item.start Item.stop (itemsOf conflicts) es := by
  let r := IntervalSweep.Before (@Item.start Time) Item.stop
  have : Std.Total r := ⟨before_total⟩
  have : IsTrans _ r := ⟨fun _ _ _ => before_trans⟩
  have hperm := List.perm_insertionSort r (itemEvents conflicts)
  refine ⟨(itemEvents conflicts).insertionSort r, ?_, ?_, fun b i => ?_, List.pairwise_insertionSort r _⟩
  · rw [sortEvents, ← map_toEvent_itemEvents]
    exact List.map_insertionSort r _ toEvent _ fun e _ f _ => (compareTo_iff_before e f).symm
  · rw [hperm.nodup_iff, itemEvents, List.nodup_flatMap]
    refine ⟨by simp, (itemsOf_nodup conflicts).imp fun hne => ?_⟩
    simp [hne.symm]
  · rw [hperm.mem_iff, itemEvents]
    cases b <;> simp

/-- The members of a merged interval are the items within it. -/
theorem filter_within {type : ConflictType} {key : ConflictingGroupKey}
    {items : List (Item Time)} {merged : List (IntervalSweep.Merged (Item Time) Time)}
    (hle : ∀ i ∈ items, i.start ≤ i.stop) (h : IntervalSweep.Merges Item.start Item.stop items merged)
    {m : IntervalSweep.Merged (Item Time) Time} (hm : m ∈ merged) :
    (items.filter fun i => i.1.Within (toConflict type key m)).Perm m.members := by
  refine (h.perm.symm.filter _).trans (List.Perm.of_eq ?_)
  have hapart : ∀ m' ∈ merged, m' ≠ m → m'.last < m.first ∨ m.last < m'.first := by
    let apart (m m' : IntervalSweep.Merged (Item Time) Time) := m.last < m'.first ∨ m'.last < m.first
    have : Std.Symm apart := ⟨fun _ _ => Or.symm⟩
    have hsymm : merged.Pairwise apart := h.apart.imp .inl
    exact fun m' hm' hne => hsymm.forall hm' hm hne
  have hdistinct : merged.Pairwise fun m m' => m.first ≠ m'.first :=
    List.Pairwise.imp_of_mem (fun hm _ hlt => ((h.le _ hm).trans_lt hlt).ne) h.apart
  refine ListsByKey.filter_flatMap_of_key hdistinct (fun m' hm' i hi => ?_) hm rfl
  have hstart := (h.spans m' hm').le_start i hi
  have hstop := h.stop_le m' hm' i hi
  have hitem : i.start ≤ i.stop := hle i (h.perm.mem_iff.mp (mem_flatMap.mpr ⟨m', hm', hi⟩))
  refine decide_eq_decide.mpr ⟨fun hwithin => ?_, fun hsame => ?_⟩
  · -- an item is not within two intervals that are strictly apart
    obtain ⟨hfirst, hlast⟩ : m.first ≤ i.start ∧ i.stop ≤ m.last := hwithin
    by_contra hne
    rcases hapart m' hm' (fun heq => hne (by rw [heq])) with hlt | hlt
    · exact absurd (hfirst.trans (hitem.trans hstop)) hlt.not_ge
    · exact absurd (hstart.trans (hitem.trans hlast)) hlt.not_ge
  · obtain rfl : m' = m := by
      by_contra hne
      rcases hapart m' hm' hne with hlt | hlt
      · exact absurd hsame ((h.le m' hm').trans_lt hlt).ne
      · exact absurd hsame ((h.le m hm).trans_lt hlt).ne'
    exact ⟨hstart, hstop⟩

variable [Zero Time]

variable (type : ConflictType) (group : ConflictingGroupKey × List (Conflict Time))
  (hle : ∀ c ∈ group.2, c.startTime ≤ c.endTime)

include hle in
/-- What a group is merged into is what the general sweep merges its items into. -/
theorem exists_merges : ∃ merged, mergeGroup type group = merged.map (toConflict type group.1) ∧
      IntervalSweep.Merges Item.start Item.stop (itemsOf group.2) merged := by
  obtain ⟨es, hsorted, hevents⟩ := exists_sorted_items group.2
  have hitems : ∀ i ∈ itemsOf group.2, i.start ≤ i.stop := fun i hi =>
    hle i.1 (itemsOf_map_fst group.2 ▸ mem_map_of_mem hi)
  refine ⟨_, ?_, merges_foldl hevents (itemsOf_nodup group.2) hitems 0⟩
  have hfold := foldl_sweepEvent type group.1 es ⟨0, 0, [], []⟩
  rw [hsorted] at hfold
  exact congrArg EventSweep.newConflicts hfold

include hle in
theorem mergeGroup_merges : MergedInto group.2 (mergeGroup type group) := by
  obtain ⟨merged, hmerged, h⟩ := exists_merges type group hle
  have hmap := itemsOf_map_fst group.2
  have hitems : ∀ i ∈ itemsOf group.2, i.start ≤ i.stop := fun i hi =>
    hle i.1 (hmap ▸ mem_map_of_mem hi)
  rw [hmerged]
  constructor
  case le =>
    intro o ho
    obtain ⟨m, hm, rfl⟩ := mem_map.mp ho
    exact h.le m hm
  case disjoint =>
    rw [List.pairwise_map]
    refine h.apart.imp fun hlt => Set.disjoint_left.mpr fun x hx hx' => ?_
    exact absurd (hx'.1.trans hx.2) hlt.not_ge
  case union =>
    ext x
    simp only [Set.mem_iUnion, exists_prop, mem_map, exists_exists_and_eq_and]
    constructor
    · rintro ⟨m, hm, hfirst, hlast⟩
      obtain ⟨i, hi, hstart, hstop⟩ := (h.spans m hm).cover x hfirst hlast
      have hitem := h.perm.mem_iff.mp (mem_flatMap.mpr ⟨m, hm, hi⟩)
      exact ⟨i.1, hmap ▸ mem_map_of_mem hitem, hstart, hstop⟩
    · rintro ⟨c, hc, hstart, hstop⟩
      rw [← hmap] at hc
      obtain ⟨i, hi, rfl⟩ := mem_map.mp hc
      obtain ⟨m, hm, hi⟩ := mem_flatMap.mp (h.perm.mem_iff.mpr hi)
      exact ⟨m, hm, ((h.spans m hm).le_start i hi).trans hstart, hstop.trans (h.stop_le m hm i hi)⟩
  case carries =>
    intro o ho
    obtain ⟨m, hm, rfl⟩ := mem_map.mp ho
    have hfilter := @filter_within Time _ type group.1 _ _ hitems h m hm
    have hreqs := (hfilter.flatMap_right Item.requirements).symm
    conv_rhs => rw [← hmap, List.filter_map, flatMap_map]
    exact hreqs
  case once =>
    have hall := h.perm.flatMap_right Item.requirements
    rw [List.flatMap_assoc] at hall
    rw [flatMap_map]
    conv_rhs => rw [← hmap, flatMap_map]
    exact hall

end Group

/-! ### All the groups -/

section Groups

variable {Time : Type} [LinearOrder Time] [Zero Time]

/-- The sweep only makes conflicts of its type and key. -/
theorem mem_mergeGroup {type : ConflictType}
    {group : ConflictingGroupKey × List (Conflict Time)} {o : Conflict Time}
    (ho : o ∈ mergeGroup type group) : o.conflictType = type ∧ o.trainIds = group.1.trainIds ∧
      o.workScheduleIds = group.1.workScheduleIds := by
  have hfold : ∀ (events : List (Event Time)) (st : EventSweep Time),
      (∀ o ∈ st.newConflicts, o.conflictType = type ∧ o.trainIds = group.1.trainIds ∧
        o.workScheduleIds = group.1.workScheduleIds) →
      ∀ o ∈ (events.foldl (sweepEvent type group.1) st).newConflicts,
        o.conflictType = type ∧ o.trainIds = group.1.trainIds ∧
          o.workScheduleIds = group.1.workScheduleIds := by
    intro events
    induction events with
    | nil => exact fun _ hst => hst
    | cons event events ih =>
      intro st hst
      refine ih _ ?_
      rw [sweepEvent]
      split
      · exact hst
      · simp only
        split
        · exact hst
        · intro o ho
          rcases List.mem_append.mp ho with ho | ho
          · exact hst o ho
          · rw [List.mem_singleton.mp ho]
            exact ⟨rfl, rfl, rfl⟩
  exact hfold _ _ (by simp) o ho

variable (visit : HashTable.Visit (ConflictingGroupKey × List (Conflict Time)))

/-- The conflicts with one key in the merged conflicts of a type. -/
theorem mergeMap_filter (conflicts : List (Conflict Time)) (hle : ∀ c ∈ conflicts, c.startTime ≤ c.endTime)
    (type : ConflictType) (ids : Finset String × Finset String) :
    MergedInto (conflicts.filter fun c => c.HasKey type ids)
      ((mergeMap visit (resourcesOf type conflicts) type).filter fun c => c.HasKey type ids) := by
  have hcollected := (resourcesOf_collected type conflicts).perm
    (visit.perm (resourcesOf type conflicts))
  have hkey : ∀ group ∈ visit.order (resourcesOf type conflicts),
      ∀ o ∈ mergeGroup type group,
        decide (o.HasKey type ids) = decide (group.1.sets = ids) := by
    intro group _ o ho
    obtain ⟨htype, htrains, hschedules⟩ := mem_mergeGroup ho
    refine decide_eq_decide.mpr ?_
    rw [Conflict.HasKey, htrains, hschedules]
    exact and_iff_right htype
  by_cases hgroup : ∃ group ∈ visit.order (resourcesOf type conflicts), group.1.sets = ids
  · obtain ⟨group, hmem, hids⟩ := hgroup
    obtain ⟨hvalues, -⟩ := mem_resourcesOf (visit.mem_order.mp hmem)
    rw [mergeMap, ListsByKey.filter_flatMap_of_key hcollected.keys hkey hmem hids, ← hids, ← hvalues]
    refine mergeGroup_merges type group fun c hc => ?_
    rw [hvalues] at hc
    exact hle c (List.mem_filter.mp hc).1
  · -- no conflict has the key
    have hinputs : conflicts.filter (fun c => c.HasKey type ids) = [] := by
      rw [List.filter_eq_nil_iff]
      intro c hc hhas
      obtain ⟨htype, hids⟩ := of_decide_eq_true hhas
      obtain ⟨group, hmem, hsame⟩ := hcollected.complete (conflictingGroupKey c, c)
        (mem_map_of_mem (List.mem_filter.mpr ⟨hc, by simpa using htype⟩))
      rw [sets_conflictingGroupKey, hids] at hsame
      exact hgroup ⟨group, hmem, hsame⟩
    have houtputs : (mergeMap visit (resourcesOf type conflicts) type).filter
        (fun c => c.HasKey type ids) = [] := by
      rw [List.filter_eq_nil_iff]
      intro o ho hhas
      obtain ⟨group, hmem, ho⟩ := mem_flatMap.mp ho
      rw [hkey group hmem o ho] at hhas
      exact hgroup ⟨group, hmem, of_decide_eq_true hhas⟩
    rw [hinputs, houtputs]
    exact ⟨by simp, .nil, by simp, by simp, by simp⟩

theorem mergeMap_filter_other (resources : List (ConflictingGroupKey × List (Conflict Time)))
    {type conflictType' : ConflictType} (hne : type ≠ conflictType') (ids : Finset String × Finset String) :
    (mergeMap visit resources type).filter (fun c => c.HasKey conflictType' ids) = [] := by
  rw [List.filter_eq_nil_iff]
  intro o ho hhas
  obtain ⟨group, -, ho⟩ := mem_flatMap.mp ho
  exact hne ((mem_mergeGroup ho).1.symm.trans (of_decide_eq_true hhas).1)

end Groups

/-- For each type and each two sets of ids, the conflicts with them are merged into disjoint ones that keep
    their times and their requirements. -/
theorem mergeConflicts_merges {Time : Type} [LinearOrder Time] [Zero Time]
    (visit : HashTable.Visit (ConflictingGroupKey × List (Conflict Time)))
    (conflicts : List (Conflict Time)) (hle : ∀ c ∈ conflicts, c.startTime ≤ c.endTime)
    (type : ConflictType) (ids : Finset String × Finset String) :
    MergedInto (conflicts.filter fun c => c.HasKey type ids)
      ((mergeConflicts visit conflicts).filter fun c => c.HasKey type ids) := by
  have h := mergeMap_filter visit conflicts hle type ids
  rw [mergeConflicts, List.filter_append]
  cases type with
  | SPACING =>
    rw [@mergeMap_filter_other Time _ _ visit _ .ROUTING .SPACING (by decide), List.append_nil]
    exact h
  | ROUTING =>
    rw [@mergeMap_filter_other Time _ _ visit _ .SPACING .ROUTING (by decide), List.nil_append]
    exact h

/-- Two conflicts of trains 1 and 2, of which the second begins where the first one ends. -/
def touchingConflicts : List (Conflict ℤ) :=
  [⟨0, 5, .SPACING, [⟨7, 0, 5⟩], ["1", "2"], []⟩, ⟨5, 9, .SPACING, [⟨8, 5, 9⟩], ["2", "1"], []⟩]

theorem mergeConflicts_merges_touching :
    MergedInto (touchingConflicts.filter fun c => c.HasKey .SPACING (["1", "2"].toFinset, ∅))
      ((mergeConflicts .inOrder touchingConflicts).filter
        fun c => c.HasKey .SPACING (["1", "2"].toFinset, ∅)) :=
  mergeConflicts_merges _ touchingConflicts (by decide) _ _

example : (mergeConflicts .inOrder touchingConflicts).map (fun c => (c.startTime, c.endTime)) =
    [(0, 9)] := by decide

end Osrd.Conflicts
