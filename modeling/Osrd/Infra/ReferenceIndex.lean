import Osrd.Infra.InfraCache

/-! When the table of the objects that refer to each track is exact.

    `add` writes the references of an object before it finds that the object exists, so the table stays
    exact as long as a duplicate brings no new reference (`Keeps`); every other operation keeps it exact,
    also when it fails. -/

namespace Osrd.Infra

instance : LawfulCache TrackSectionCache := ⟨fun _ => rfl⟩

instance : LawfulCache SignalCache := ⟨fun _ => rfl⟩

instance : LawfulCache SpeedSection := ⟨fun _ => rfl⟩

instance : LawfulCache SwitchCache := ⟨fun _ => rfl⟩

instance : LawfulCache DetectorCache := ⟨fun _ => rfl⟩

instance : LawfulCache BufferStopCache := ⟨fun _ => rfl⟩

instance : LawfulCache Route := ⟨fun _ => rfl⟩

instance : LawfulCache OperationalPointCache := ⟨fun _ => rfl⟩

instance : LawfulCache SwitchType := ⟨fun _ => rfl⟩

instance : LawfulCache Electrification := ⟨fun _ => rfl⟩

instance : LawfulCache NeutralSection := ⟨fun _ => rfl⟩

instance : LawfulCache LevelCrossingCache := ⟨fun _ => rfl⟩

namespace InfraCache

open InvertedIndex Cache List Function

variable {s : InfraCache}

/-- The object `r` is in the cache and refers to the track. -/
def RefersTo (s : InfraCache) (r : ObjectRef) (track : String) : Prop :=
  ∃ obj, s.get r = some obj ∧ track ∈ obj.getTrackReferencedId

/-- An object is listed under a track exactly when it is in the cache and refers to it. -/
def Exact (s : InfraCache) : Prop :=
  ∀ track r, Lists s.trackSectionsRefs track r ↔ s.RefersTo r track

/-- An object may be added when it is not in the cache, or brings no reference that the one in the
    cache does not have. -/
def Keeps (s : InfraCache) (r : ObjectRef) (tracks : List String) : Prop :=
  s.get r = none ∨ ∀ track ∈ tracks, s.RefersTo r track

theorem get_setObject (r r' : ObjectRef) (obj : Option ObjectCache) :
    (s.setObject r obj).get r' = if r' = r then obj else s.get r' := by
  obtain ⟨type, id⟩ := r
  obtain ⟨type', id'⟩ := r'
  simp only [get, setObject, ObjectRef.mk.injEq]
  rcases eq_or_ne type' type with rfl | htype
  · rw [update_self]
    rcases eq_or_ne id' id with rfl | hid
    · rw [update_self, if_pos ⟨rfl, rfl⟩]
    · rw [update_of_ne hid, if_neg fun h => hid h.2]
  · rw [update_of_ne htype, if_neg fun h => htype h.1]

theorem default_exact : Exact default := by
  intro track r
  constructor
  · rintro ⟨refs, hrefs, -⟩
    exact nomatch hrefs
  · rintro ⟨obj, hobj, -⟩
    exact nomatch hobj

/-! ### Adding -/

section Add

variable {T : Type} [Cache T] {obj : T}

/-- The cache of an object that is already there. -/
theorem add_of_some {present : ObjectCache} (h : s.get (getRef obj) = some present) :
    s.add obj = ({ s with
      trackSectionsRefs := s.trackSectionsRefs.insertAll (getRef obj) (getTrackReferencedId obj) },
      .error (.DuplicateIdsProvided (getType T).toString (getId obj))) := by
  have hobject : s.objects (getType T) (getId obj) = some present := h
  simp only [add, hobject]

theorem add_of_none (h : s.get (getRef obj) = none) : s.add obj = (setObject { s with
      trackSectionsRefs := s.trackSectionsRefs.insertAll (getRef obj) (getTrackReferencedId obj) }
      (getRef obj) (some (getObjectCache obj)), .ok ()) := by
  have hobject : s.objects (getType T) (getId obj) = none := h
  simp only [add, hobject]

theorem add_ok_iff : (s.add obj).2 = .ok () ↔ s.get (getRef obj) = none := by
  cases h : s.get (getRef obj) with
  | none => simp [add_of_none h]
  | some present => simp [add_of_some h]

theorem add_exact_iff [LawfulCache T] (h : Exact s) :
    Exact (s.add obj).1 ↔ Keeps s (getRef obj) (getTrackReferencedId obj) := by
  cases hget : s.get (getRef obj) with
  | some present =>
    rw [add_of_some hget, Keeps, hget]
    simp only [reduceCtorEq, false_or]
    constructor
    · intro hexact track htrack
      exact (hexact track _).mp (lists_insertAll.mpr (.inr ⟨htrack, rfl⟩))
    · intro hkeeps track r
      rw [lists_insertAll, h track r]
      refine ⟨?_, .inl⟩
      rintro (hrefers | ⟨htrack, rfl⟩)
      · exact hrefers
      · exact hkeeps track htrack
  | none =>
    refine iff_of_true ?_ (.inl hget)
    intro track r
    rw [add_of_none hget]
    simp only [RefersTo, get_setObject]
    change Lists (insertAll _ _ _) _ _ ↔ _
    rw [lists_insertAll, h track r]
    rcases eq_or_ne r (getRef obj) with rfl | hne
    · simp [RefersTo, hget, LawfulCache.tracks_objectCache]
    · simp only [hne, and_false, or_false]
      rfl

end Add

theorem applyCreate_ok_iff (obj : ObjectCache) :
    (s.applyCreate obj).2 = .ok () ↔ s.get obj.getRef = none := by
  cases obj <;> exact add_ok_iff

theorem applyCreate_exact_iff (h : Exact s) (obj : ObjectCache) :
    Exact (s.applyCreate obj).1 ↔ Keeps s obj.getRef obj.getTrackReferencedId := by
  cases obj <;> exact add_exact_iff h

/-! ### Deleting and updating -/

/-- Deleting keeps the table exact; it fails on an absent object only, and then changes nothing. -/
theorem applyDelete_spec (h : Exact s) (r : ObjectRef) :
    Exact (s.applyDelete r).1 ∧ (s.applyDelete r).1.get r = none ∧
      ((s.applyDelete r).2 = .ok () ↔ s.get r ≠ none) := by
  cases hget : s.get r with
  | none =>
    have hobject : s.objects r.objType r.objId = none := hget
    simp only [applyDelete, hobject]
    exact ⟨h, hget, by simp⟩
  | some obj =>
    have hobject : s.objects r.objType r.objId = some obj := hget
    have hkeys : ∀ track ∈ obj.getTrackReferencedId, s.trackSectionsRefs track ≠ none := by
      intro track htrack hnone
      obtain ⟨refs, hrefs, -⟩ := (h track r).mpr ⟨obj, hget, htrack⟩
      exact nomatch hnone.symm.trans hrefs
    obtain ⟨hdone, hlists⟩ := eraseAll_spec (r := r) hkeys
    have hdelete : s.applyDelete r = ({ s.setObject r none with
        trackSectionsRefs := (s.trackSectionsRefs.eraseAll r obj.getTrackReferencedId).1 },
        .ok ()) := by
      have herase : (s.setObject r none).trackSectionsRefs.eraseAll r obj.getTrackReferencedId =
          ((s.trackSectionsRefs.eraseAll r obj.getTrackReferencedId).1, true) := Prod.ext rfl hdone
      simp only [applyDelete, hobject, herase]
    rw [hdelete]
    refine ⟨fun track r' => ?_, ?_, by simp⟩
    · change Lists (eraseAll r s.trackSectionsRefs obj.getTrackReferencedId).1 track r' ↔
        RefersTo (s.setObject r none) r' track
      rw [hlists, h track r']
      simp only [RefersTo, get_setObject]
      rcases eq_or_ne r' r with rfl | hne
      · simp [hget]
      · simp [hne]
    · exact (get_setObject r r none).trans (if_pos rfl)

theorem applyUpdate_exact (h : Exact s) (obj : ObjectCache) : Exact (s.applyUpdate obj).1 := by
  obtain ⟨hexact, hnone, -⟩ := applyDelete_spec h obj.getRef
  rw [applyUpdate]
  split
  · next s' e hdelete =>
    rw [hdelete] at hexact
    exact hexact
  · next s' hdelete =>
    rw [hdelete] at hexact hnone
    exact (applyCreate_exact_iff hexact obj).mpr (.inl hnone)

/-! ### Lists of operations -/

/-- What `Keeps` asks of an operation; deleting and updating need nothing. -/
def OperationKeeps (s : InfraCache) : CacheOperation → Prop
  | .Create obj => Keeps s obj.getRef obj.getTrackReferencedId
  | .Update _ => True
  | .Delete _ => True

/-- Every operation that is carried out meets its condition. -/
def OperationsKeep (s : InfraCache) : List CacheOperation → Prop
  | [] => True
  | op :: operations => s.OperationKeeps op ∧
      ((s.applyOperation op).2 = .ok () → (s.applyOperation op).1.OperationsKeep operations)

theorem applyOperation_exact_iff (h : Exact s) (op : CacheOperation) :
    Exact (s.applyOperation op).1 ↔ s.OperationKeeps op := by
  cases op with
  | Create obj => exact applyCreate_exact_iff h obj
  | Update obj => exact iff_of_true (applyUpdate_exact h obj) trivial
  | Delete r => exact iff_of_true (applyDelete_spec h r).1 trivial

/-- An operation that succeeds meets its condition. -/
theorem operationKeeps_of_ok {op : CacheOperation} (hok : (s.applyOperation op).2 = .ok ()) :
    s.OperationKeeps op := by
  cases op with
  | Create obj => exact .inl ((applyCreate_ok_iff obj).mp hok)
  | Update obj => trivial
  | Delete r => trivial

theorem applyOperations_exact_iff (h : Exact s) (operations : List CacheOperation) :
    Exact (s.applyOperations operations).1 ↔ s.OperationsKeep operations := by
  induction operations generalizing s with
  | nil => exact iff_of_true h trivial
  | cons op operations ih =>
    rw [applyOperations, OperationsKeep]
    split
    · next s' e heq =>
      -- the loop ends with the error, so only the condition of this operation matters
      rw [← applyOperation_exact_iff h op, heq]
      simp
    · next s' heq =>
      have hkeeps : s.OperationKeeps op := operationKeeps_of_ok (by rw [heq])
      have hexact : Exact s' := by
        have := (applyOperation_exact_iff h op).mpr hkeeps
        rwa [heq] at this
      rw [ih hexact, heq]
      simp [hkeeps]

/-! ### Runs -/

/-- A call on the cache. -/
inductive Call : Type 1
  | add {T : Type} [Cache T] [LawfulCache T] (obj : T)
  | applyDelete (objectRef : ObjectRef)
  | applyUpdate (objectCache : ObjectCache)
  | applyCreate (objectCache : ObjectCache)
  | applyOperations (operations : List CacheOperation)

def Call.apply (s : InfraCache) : Call → Outcome
  | @Call.add _ _ _ obj => s.add obj
  | .applyDelete objectRef => s.applyDelete objectRef
  | .applyUpdate objectCache => s.applyUpdate objectCache
  | .applyCreate objectCache => s.applyCreate objectCache
  | .applyOperations operations => s.applyOperations operations

/-- No object that the call adds is in the cache with fewer references. -/
def Call.Keeps (s : InfraCache) : Call → Prop
  | @Call.add _ _ _ obj => s.Keeps (Cache.getRef obj) (Cache.getTrackReferencedId obj)
  | .applyDelete _ => True
  | .applyUpdate _ => True
  | .applyCreate objectCache => s.Keeps objectCache.getRef objectCache.getTrackReferencedId
  | .applyOperations operations => s.OperationsKeep operations

theorem Call.exact_iff (h : Exact s) (call : Call) : Exact (call.apply s).1 ↔ call.Keeps s := by
  cases call with
  | @add T _ _ obj => exact add_exact_iff h
  | applyDelete r => exact iff_of_true (applyDelete_spec h r).1 trivial
  | applyUpdate obj => exact iff_of_true (applyUpdate_exact h obj) trivial
  | applyCreate obj => exact applyCreate_exact_iff h obj
  | applyOperations operations => exact applyOperations_exact_iff h operations

/-- The cache after calls that may fail. -/
def run (s : InfraCache) (calls : List Call) : InfraCache :=
  calls.foldl (fun s call => (call.apply s).1) s

theorem run_concat (calls : List Call) (call : Call) :
    s.run (calls ++ [call]) = (call.apply (s.run calls)).1 := by
  rw [run, foldl_append]
  rfl

/-- From an exact cache, every cache of a run is exact, and deleting fails in it on absent objects only,
    if and only if every call of the run meets its condition. -/
theorem run_exact_iff (h : Exact s) (calls : List Call) :
    (∀ before, before <+: calls → Exact (s.run before) ∧ ∀ r e,
      ((s.run before).applyDelete r).2 = .error e → (s.run before).get r = none) ↔
    ∀ before call, before ++ [call] <+: calls → call.Keeps (s.run before) := by
  constructor
  · intro hexact before call hpre
    have hbefore := (hexact before ((prefix_append _ _).trans hpre)).1
    rw [← call.exact_iff hbefore, ← run_concat]
    exact (hexact _ hpre).1
  · intro hkeeps
    -- the caches of the run are exact one after the other
    have hexact : ∀ before, before <+: calls → Exact (s.run before) := by
      intro before
      induction before using reverseRecOn with
      | nil => exact fun _ => h
      | append_singleton before call ih =>
        intro hpre
        rw [run_concat, call.exact_iff (ih ((prefix_append _ _).trans hpre))]
        exact hkeeps before call hpre
    refine fun before hpre => ⟨hexact before hpre, fun r e herror => ?_⟩
    by_contra hsome
    have hok := (applyDelete_spec (hexact before hpre) r).2.2.mpr hsome
    exact nomatch herror.symm.trans hok

/-- A signal is added, and deleted. -/
theorem run_exact_signal : Exact (default.run
    [.add (⟨"s", "A", 0, "[]"⟩ : SignalCache), .applyDelete ⟨.Signal, "s"⟩]) := by
  have hkeeps : ∀ before call, before ++ [call] <+:
      [Call.add (⟨"s", "A", 0, "[]"⟩ : SignalCache), .applyDelete ⟨.Signal, "s"⟩] →
      call.Keeps (default.run before) := by
    intro before call hpre
    rcases before with _ | ⟨first, _ | ⟨second, rest⟩⟩
    · cases (cons_prefix_cons.mp hpre).1
      exact .inl rfl
    · obtain ⟨-, hpre⟩ := cons_prefix_cons.mp hpre
      cases (cons_prefix_cons.mp hpre).1
      trivial
    · have hlength := hpre.length_le
      simp at hlength
  exact ((run_exact_iff default_exact _).mpr hkeeps _ (prefix_refl _)).1

/-- A signal that exists is added again on another track: the call fails, and the signal is listed under
    a track that it does not refer to. -/
theorem add_duplicate_lists_track :
    let s := default.run [.add (⟨"s", "A", 0, "[]"⟩ : SignalCache), .add (⟨"s", "B", 0, "[]"⟩ : SignalCache)]
    Lists s.trackSectionsRefs "B" ⟨.Signal, "s"⟩ ∧ ¬ s.RefersTo ⟨.Signal, "s"⟩ "B" := by
  refine ⟨⟨{⟨.Signal, "s"⟩}, rfl, by simp⟩, ?_⟩
  rintro ⟨obj, hobj, htrack⟩
  cases (hobj : some (ObjectCache.Signal ⟨"s", "A", 0, "[]"⟩) = some obj)
  exact absurd htrack (by decide)

end InfraCache

end Osrd.Infra
