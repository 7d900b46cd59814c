import Mathlib.Data.Rat.Floor
import Osrd.Lib.Partial
import Osrd.InfraErrors.Generators

/-! When the error generators return (`editoast/src/generated_data/error/*.rs`).

    A generator is only run on an object once all those of a lower priority have found nothing on it, so a
    generator may rely on what these have checked. That is why switches and routes never panic. The global
    generators have no such protection: `check_overlapping` writes the ranges of every speed section and of
    every electrification into a map of intervals, also the ranges that were reported or that are empty, and
    the buffer stops of a track are looked up by the references that the cache has for it. -/

namespace Osrd.InfraErrors

open Osrd.InfraErrors.Graph (load)
open Infra (ObjectRef ApplicableDirectionsTrackRange)
open Option (isSome_iff_exists bind_some isSome_map bind_eq_bind)

variable {K Obj Ctx : Type} {cache : InfraCache K} {graph : Graph} {el : Obj}

/-! ### The priorities -/

variable {priority : ℕ}

namespace ObjectErrorGenerator

/-- The generator has found nothing on the object. -/
def Passes (cache : InfraCache K) (graph : Graph) (el : Obj) (f : ObjectErrorGenerator Obj K Ctx) :
    Prop :=
  ∃ context context', f.run el cache graph context = some ([], context')

/-- The generator never finds anything on the object. -/
def FindsNothing (cache : InfraCache K) (graph : Graph) (el : Obj)
    (f : ObjectErrorGenerator Obj K Ctx) : Prop :=
  ∀ context result, f.run el cache graph context = some result → result.1 = []

variable {check : Obj → InfraCache K → Graph → Option (List (InfraError K))}

theorem noContext_passes
    (h : (NoContext priority check : ObjectErrorGenerator Obj K Ctx).Passes cache graph el) :
    check el cache graph = some [] := by
  obtain ⟨context, context', hrun⟩ := h
  obtain ⟨errors, herrors, heq⟩ := Option.map_eq_some_iff.mp hrun
  rw [herrors, (Prod.mk.inj heq).1]

theorem noContext_findsNothing (h : check el cache graph = some []) :
    (NoContext priority check : ObjectErrorGenerator Obj K Ctx).FindsNothing cache graph el := by
  intro context result hrun
  obtain ⟨errors, herrors, heq⟩ := Option.map_eq_some_iff.mp hrun
  rw [h] at herrors
  cases heq
  exact (Option.some.inj herrors).symm

theorem noContext_run_isSome {context : Ctx} :
    ((NoContext priority check : ObjectErrorGenerator Obj K Ctx).run el cache graph context).isSome ↔
      (check el cache graph).isSome := by
  rw [run, isSome_map]

end ObjectErrorGenerator

open ObjectErrorGenerator List

/-- A generator that is not skipped. -/
theorem checkObject_cons_isSome {f : ObjectErrorGenerator Obj K Ctx}
    {generators : List (ObjectErrorGenerator Obj K Ctx)} {found : Bool} {context : Ctx}
    (hrun : ¬(f.getPriority ≠ priority ∧ found)) :
    (checkObject cache graph el (f :: generators) found priority context).isSome ↔
      ∃ result, f.run el cache graph context = some result ∧
        (checkObject cache graph el generators (found || !result.1.isEmpty) f.getPriority
          result.2).isSome := by
  rw [checkObject, if_neg hrun]
  cases hf : f.run el cache graph context with
  | none => simp
  | some result =>
    cases hrest : checkObject cache graph el generators (found || !result.1.isEmpty) f.getPriority
      result.2 <;> simp [hrest]

/-- The generators return on an object when each of them does once those of lower priorities have found
    nothing. -/
theorem checkObject_isSome {all : List (ObjectErrorGenerator Obj K Ctx)}
    (hsafe : ∀ f ∈ all, (∀ g ∈ all, g.getPriority < f.getPriority → g.Passes cache graph el) →
      ∀ context, (f.run el cache graph context).isSome) :
    ∀ (generators : List (ObjectErrorGenerator Obj K Ctx)) (found : Bool) (priority : ℕ) (context : Ctx),
    (∀ f ∈ generators, f ∈ all) → generators.Pairwise (·.getPriority ≤ ·.getPriority) →
    (∀ g ∈ all, g ∈ generators ∨ (g.getPriority < priority → g.Passes cache graph el) ∧
      (found = false → g.Passes cache graph el)) →
    (checkObject cache graph el generators found priority context).isSome
  | [], _, _, _, _, _, _ => rfl
  | f :: generators, found, priority, context, hall, hsorted, hdone => by
    by_cases hskip : f.getPriority ≠ priority ∧ found
    · rw [checkObject, if_pos hskip]
      rfl
    obtain ⟨hf, hsorted⟩ := pairwise_cons.mp hsorted
    -- a generator of a lower priority has been run, and has found nothing or `f` would be skipped
    have hlower : ∀ g ∈ all, g.getPriority < f.getPriority → g.Passes cache graph el := by
      intro g hg hlt
      rcases hdone g hg with hmem | ⟨hbelow, hnone⟩
      · rcases mem_cons.mp hmem with rfl | hmem
        · exact absurd hlt (lt_irrefl _)
        · exact absurd (hf g hmem) hlt.not_ge
      · by_cases heq : f.getPriority = priority
        · exact hbelow (heq ▸ hlt)
        · exact hnone (Bool.not_eq_true _ ▸ fun hfound => hskip ⟨heq, hfound⟩)
    obtain ⟨result, hresult⟩ := isSome_iff_exists.mp (hsafe f (hall f mem_cons_self) hlower context)
    refine (checkObject_cons_isSome hskip).mpr ⟨result, hresult, ?_⟩
    refine checkObject_isSome hsafe generators _ _ _ (forall_mem_cons.mp hall).2
      hsorted fun g hg => ?_
    rcases hdone g hg with hmem | ⟨hbelow, hnone⟩
    · rcases mem_cons.mp hmem with rfl | hmem
      · refine .inr ⟨fun hlt => absurd hlt (lt_irrefl _), fun hfound => ?_⟩
        rw [Bool.or_eq_false_iff, Bool.not_eq_false', List.isEmpty_iff] at hfound
        exact ⟨context, result.2, hfound.2 ▸ hresult⟩
      · exact .inl hmem
    · exact .inr ⟨hlower g hg, fun hfound => hnone (Bool.or_eq_false_iff.mp hfound).1⟩

/-- A generator is run when nothing is found at lower priorities. -/
theorem run_of_checkObject_isSome : ∀ (generators : List (ObjectErrorGenerator Obj K Ctx)) (found : Bool)
    (priority : ℕ) (context : Ctx),
    generators.Pairwise (·.getPriority ≤ ·.getPriority) → (∀ f ∈ generators, priority ≤ f.getPriority) →
    (checkObject cache graph el generators found priority context).isSome →
    ∀ f ∈ generators, (∀ g ∈ generators, g.getPriority < f.getPriority → g.FindsNothing cache graph el) →
    (found → f.getPriority = priority) → ∃ context, (f.run el cache graph context).isSome
  | h :: generators, found, priority, context, hsorted, hpriority, hsome, f, hf, hnothing, hfound => by
    obtain ⟨hh, hsorted⟩ := pairwise_cons.mp hsorted
    have hle : h.getPriority ≤ f.getPriority := by
      rcases mem_cons.mp hf with rfl | hf
      · exact le_rfl
      · exact hh f hf
    have hrun : ¬(h.getPriority ≠ priority ∧ found) := fun ⟨hne, htrue⟩ =>
      hne (le_antisymm (hfound htrue ▸ hle) (hpriority h mem_cons_self))
    obtain ⟨result, hresult, hrest⟩ := (checkObject_cons_isSome hrun).mp hsome
    rcases mem_cons.mp hf with rfl | hf
    · exact ⟨context, hresult ▸ rfl⟩
    refine run_of_checkObject_isSome generators _ _ _ hsorted hh hrest f hf
      (forall_mem_cons.mp hnothing).2 fun htrue => ?_
    rcases hle.eq_or_lt with heq | hlt
    · exact heq.symm
    -- nothing was found by `h`, so the error is an earlier one, at the priority of `f`
    have hempty := hnothing h mem_cons_self hlt context result hresult
    rw [hempty] at htrue
    simp only [isEmpty_nil, Bool.not_true, Bool.or_false] at htrue
    exact absurd (hpriority h mem_cons_self) (not_le.mpr (hfound htrue ▸ hlt))

/-! ### All the objects of a type -/

variable {generators : List (ObjectErrorGenerator Obj K Ctx)}

theorem checkObjects_isSome : ∀ {els : List Obj} (context : Ctx),
    (∀ el ∈ els, ∀ context, (checkObject cache graph el generators false 0 context).isSome) →
    (checkObjects cache graph generators els context).isSome
  | [], _, _ => rfl
  | el :: els, context, h => by
    obtain ⟨hel, hels⟩ := forall_mem_cons.mp h
    obtain ⟨result, hresult⟩ := isSome_iff_exists.mp (hel context)
    obtain ⟨rest, hrest⟩ := isSome_iff_exists.mp (checkObjects_isSome result.2 hels)
    simp [checkObjects, hresult, hrest]

theorem checkObject_of_checkObjects : ∀ {els : List Obj} (context : Ctx),
    (checkObjects cache graph generators els context).isSome →
    ∀ el ∈ els, ∃ context, (checkObject cache graph el generators false 0 context).isSome
  | el' :: els, context, h, el, hel => by
    rw [checkObjects] at h
    cases hresult : checkObject cache graph el' generators false 0 context with
    | none => simp [hresult] at h
    | some result =>
      rcases mem_cons.mp hel with rfl | hel
      · exact ⟨context, hresult ▸ rfl⟩
      · refine checkObject_of_checkObjects result.2 ?_ el hel
        cases hrest : checkObjects cache graph generators els result.2 with
        | none => simp [hresult, hrest] at h
        | some rest => rfl

theorem checkGlobals_isSome : ∀ {globals : List (GlobalErrorGenerator K Ctx)} (context : Ctx),
    (∀ f ∈ globals, ∀ context, (f.run cache graph context).isSome) →
    (checkGlobals cache graph globals context).isSome
  | [], _, _ => rfl
  | f :: globals, context, h => by
    obtain ⟨hf, hglobals⟩ := forall_mem_cons.mp h
    obtain ⟨result, hresult⟩ := isSome_iff_exists.mp (hf context)
    obtain ⟨rest, hrest⟩ := isSome_iff_exists.mp (checkGlobals_isSome result.2 hglobals)
    simp [checkGlobals, hresult, hrest]

/-- The generators of a type return when each may rely on those of lower priorities. -/
theorem generateErrors_isSome {objects : List Obj} {globals : List (GlobalErrorGenerator K Ctx)}
    {context : Ctx} (hsorted : generators.Pairwise (·.getPriority ≤ ·.getPriority))
    (hsafe : ∀ el ∈ objects, ∀ f ∈ generators,
      (∀ g ∈ generators, g.getPriority < f.getPriority → g.Passes cache graph el) →
      ∀ context, (f.run el cache graph context).isSome)
    (hglobals : ∀ f ∈ globals, ∀ context, (f.run cache graph context).isSome) :
    (generateErrors objects cache graph generators globals context).isSome := by
  have hobjects : (checkObjects cache graph generators objects context).isSome :=
    checkObjects_isSome context fun el hel context =>
      checkObject_isSome (hsafe el hel) generators _ _ _ (fun _ => id) hsorted fun _ => .inl
  obtain ⟨result, hresult⟩ := isSome_iff_exists.mp hobjects
  obtain ⟨rest, hrest⟩ := isSome_iff_exists.mp (checkGlobals_isSome result.2 hglobals)
  simp [generateErrors, hresult, hrest]

/-- The generators without a context: those of a type return exactly when each does on the objects on which
    those of lower priorities find nothing, and the global one does. -/
theorem generateErrors_noContext_isSome_iff {objects : List Obj}
    {checks : List (ℕ × (Obj → InfraCache K → Graph → Option (List (InfraError K))))}
    {globalCheck : InfraCache K → Graph → Option (List (InfraError K))}
    (hsorted : checks.Pairwise (·.1 ≤ ·.1)) :
    (generateErrors objects cache graph (checks.map fun c => .NoContext c.1 c.2)
      [.NoContext globalCheck] ({} : NoContext)).isSome ↔
      (∀ el ∈ objects, ∀ c ∈ checks, (∀ d ∈ checks, d.1 < c.1 → d.2 el cache graph = some []) →
        (c.2 el cache graph).isSome) ∧ (globalCheck cache graph).isSome := by
  have hsorted' : (checks.map fun c =>
      (.NoContext c.1 c.2 : ObjectErrorGenerator Obj K Osrd.InfraErrors.NoContext)).Pairwise
        (·.getPriority ≤ ·.getPriority) := pairwise_map.mpr hsorted
  constructor
  · intro h
    cases hobjects : checkObjects cache graph
      (checks.map fun c => ObjectErrorGenerator.NoContext c.1 c.2) objects ({} : NoContext) with
    | none => simp [generateErrors, hobjects] at h
    | some result =>
      refine ⟨fun el hel c hc hnothing => ?_, ?_⟩
      · obtain ⟨context, hsome⟩ := checkObject_of_checkObjects _
          (isSome_iff_exists.mpr ⟨_, hobjects⟩) el hel
        obtain ⟨context, hrun⟩ := run_of_checkObject_isSome _ _ _ _ hsorted'
          (fun _ _ => Nat.zero_le _) hsome _ (mem_map_of_mem hc)
          (forall_mem_map.mpr fun d hd hlt => noContext_findsNothing (hnothing d hd hlt))
          (fun h => Bool.noConfusion h)
        exact noContext_run_isSome.mp hrun
      · cases hglobal : globalCheck cache graph with
        | none => simp [generateErrors, checkGlobals, GlobalErrorGenerator.run, hglobal] at h
        | some _ => rfl
  · rintro ⟨hobjects, hglobal⟩
    refine generateErrors_isSome hsorted' (fun el hel => ?_) fun f hf context => ?_
    · refine forall_mem_map.mpr fun c hc hlower context => noContext_run_isSome.mpr ?_
      exact hobjects el hel c hc fun d hd hlt =>
        noContext_passes (hlower _ (mem_map_of_mem hd) hlt)
    · rw [mem_singleton.mp hf, GlobalErrorGenerator.run, isSome_map]
      exact hglobal

/-! ### Switches and routes -/

/-- The lookup of the type of a switch comes after the check of its reference. -/
theorem Switches.generate_isSome (cache : InfraCache K) : (Switches.generate cache).isSome := by
  refine generateErrors_isSome (by simp [objectGenerators, getPriority]) (fun switch _ => ?_) (by simp)
  intro f hf hlower context
  simp only [objectGenerators, mem_cons, not_mem_nil, or_false] at hf
  rcases hf with rfl | rfl | rfl | rfl | rfl
  · rfl
  · rfl
  · have hpass : checkInvalidRefSwitchType switch cache (load cache) = some [] :=
      noContext_passes (hlower (.NoContext 1 checkInvalidRefSwitchType) (by simp [objectGenerators])
        (by simp [getPriority]))
    rw [noContext_run_isSome, checkMatchPortsType]
    cases htype : cache.switchType switch.switchType with
    | none => simp [checkInvalidRefSwitchType, htype] at hpass
    | some switchType =>
      simp only [bind_eq_bind, bind_some]
      split <;> rfl
  · rfl
  · rw [run, checkOverlapping]
    split
    · next port hport =>
      have hsome : (context.endpointToSwitch port).isSome := @find?_some _ _ port _ hport
      obtain ⟨other, hother⟩ := isSome_iff_exists.mp hsome
      rw [hother]
      rfl
    · rfl

theorem Routes.checkSwitchDirection_isSome (route : Route) (entry : String × String) :
    (checkSwitchDirection route cache entry).isSome := by
  rw [checkSwitchDirection]
  cases hswitch : cache.switch entry.1 with
  | none => rfl
  | some switch =>
    simp only [Option.isNone_some, Bool.false_eq_true, if_false, bind_eq_bind, bind_some]
    split
    · rfl
    · split <;> rfl

section Routes

variable [LinearOrder K]

/-- The lookups of the release detectors come after the check of their references. -/
theorem Routes.checkPath_isSome
    {computeTrackRangesOnRoute : InfraCache K → Route → Graph → Option (RoutePath K)} {route : Route}
    {context : Context} (hdetectors : ∀ id ∈ route.releaseDetectors, (cache.detector id).isSome) :
    (checkPath computeTrackRangesOnRoute route cache graph context).isSome := by
  rw [checkPath]
  split
  · rfl
  · next path _ =>
    have hall : (route.releaseDetectors.zipIdx.mapM (checkReleaseDetector route path cache)).isSome := by
      refine Partial.mapM_isSome_iff.mpr fun entry hentry => ?_
      have hmem : entry.1 ∈ route.releaseDetectors := fst_mem_of_mem_zipIdx hentry
      obtain ⟨detector, hdetector⟩ := isSome_iff_exists.mp (hdetectors _ hmem)
      simp [checkReleaseDetector, hdetector]
    obtain ⟨errors, herrors⟩ := isSome_iff_exists.mp hall
    simp [herrors]

theorem Routes.generate_isSome
    (computeTrackRangesOnRoute : InfraCache K → Route → Graph → Option (RoutePath K))
    (cache : InfraCache K) : (generate computeTrackRangesOnRoute cache).isSome := by
  refine generateErrors_isSome (by simp [objectGenerators, getPriority]) (fun route _ => ?_)
    (by simp [globalGenerators, GlobalErrorGenerator.run, checkMissing])
  intro f hf hlower context
  simp only [objectGenerators, mem_cons, not_mem_nil, or_false] at hf
  rcases hf with rfl | rfl | rfl | rfl | rfl
  · rfl
  · rfl
  · rfl
  · rw [noContext_run_isSome, checkSwitchesDirectionsRef, isSome_map]
    exact Partial.mapM_isSome_iff.mpr fun entry _ => checkSwitchDirection_isSome route entry
  · have hpass : checkReleaseDetectorsRef route cache (load cache) = some [] :=
      noContext_passes (hlower (.NoContext 1 checkReleaseDetectorsRef) (by simp [objectGenerators])
        (by simp [getPriority]))
    refine checkPath_isSome fun id hid => ?_
    obtain ⟨i, hi⟩ := mem_iff_getElem?.mp hid
    have hnone := filterMap_eq_nil_iff.mp (Option.some.inj hpass) (id, i)
      (mk_mem_zipIdx_iff_getElem?.mpr hi)
    simpa [Option.isSome_iff_ne_none] using hnone

end Routes

/-! ### Speed sections and electrifications -/

section Intervals

variable {Key : Type} [DecidableEq Key]

theorem Overlaps.insert_isSome (overlaps : Overlaps Key) (insertion : Insertion Key) :
    (overlaps.insert insertion).isSome ↔ insertion.range.1 < insertion.range.2 := by
  rw [insert, IntervalMap.insert]
  split <;> simp_all

/-- The map refuses an empty interval, whatever it holds. -/
theorem checkInsertions_isSome_iff {newError : String → String → InfraError K}
    {insertions : List (Insertion Key)} :
    (checkInsertions newError insertions).isSome ↔ ∀ i ∈ insertions, i.range.1 < i.range.2 := by
  rw [← Partial.foldlM_isSome_iff Overlaps.insert_isSome insertions ⟨fun _ => [], []⟩, checkInsertions]
  cases insertions.foldlM Overlaps.insert _ <;> simp

end Intervals

section Ranges

variable [Zero K] [LinearOrder K]

theorem checkTrackRanges_isSome (object : ObjectRef)
    (trackRanges : List (ApplicableDirectionsTrackRange K)) :
    (checkTrackRanges object trackRanges cache).isSome := by
  rw [checkTrackRanges, isSome_map]
  refine Partial.mapM_isSome_iff.mpr fun entry _ => ?_
  rw [checkTrackRange]
  cases cache.trackSection entry.1.track <;> simp

variable [Position K]

/-- The range has at least one hundredth between its bounds, as they are cut down. -/
def CoversHundredth (range : ApplicableDirectionsTrackRange K) : Prop :=
  Position.hundredths range.beginAt < Position.hundredths range.endAt

omit [Zero K] [LinearOrder K] in
theorem SpeedSections.insertions_covered_iff {speedSection : SpeedSection K} :
    (∀ i ∈ insertions speedSection, i.range.1 < i.range.2) ↔ (speedSection.hasPslSncf = false →
        (speedSection.speedLimit.isSome ∨ speedSection.speedLimitByTag ≠ []) →
        ∀ range ∈ speedSection.trackRanges, CoversHundredth range) := by
  have hdirections : ∀ directions, getDirections directions ≠ [] := by
    intro directions
    cases directions <;> simp [getDirections]
  have htags : tags speedSection ≠ [] ↔
      (speedSection.speedLimit.isSome ∨ speedSection.speedLimitByTag ≠ []) := by
    cases hlimit : speedSection.speedLimit <;> simp [tags, hlimit]
  rw [← htags, insertions]
  cases speedSection.hasPslSncf with
  | true => simp
  | false =>
    simp only [Bool.false_eq_true, if_false, mem_flatMap, mem_map]
    constructor
    · intro h _ hne range hrange
      obtain ⟨tag, htag⟩ := exists_mem_of_ne_nil _ hne
      obtain ⟨direction, hdirection⟩ := exists_mem_of_ne_nil _ (hdirections range.direction)
      exact h _ ⟨range, hrange, direction, hdirection, tag, htag, rfl⟩
    · rintro h i ⟨range, hrange, direction, hdirection, tag, htag, rfl⟩
      exact h trivial (ne_nil_of_mem htag) range hrange

theorem SpeedSections.generate_isSome_iff (cache : InfraCache K) :
    (generate cache).isSome ↔
      ∀ speedSection ∈ cache.speedSections, speedSection.hasPslSncf = false →
        (speedSection.speedLimit.isSome ∨ speedSection.speedLimitByTag ≠ []) →
        ∀ range ∈ speedSection.trackRanges, CoversHundredth range := by
  have hiff := @generateErrors_noContext_isSome_iff K (SpeedSection K) cache (load cache)
    cache.speedSections [(1, checkEmpty), (2, checkSpeedSectionTrackRanges)] checkOverlapping (by simp)
  refine hiff.trans ((and_iff_right fun speedSection _ c hc _ => ?_).trans ?_)
  · simp only [mem_cons, not_mem_nil, or_false] at hc
    rcases hc with rfl | rfl
    · rfl
    · exact checkTrackRanges_isSome _ _
  · rw [checkOverlapping, checkInsertions_isSome_iff, forall_mem_flatMap]
    exact forall₂_congr fun speedSection _ => insertions_covered_iff

theorem Electrifications.generate_isSome_iff (cache : InfraCache K) :
    (generate cache).isSome ↔
      ∀ electrification ∈ cache.electrifications, ∀ range ∈ electrification.trackRanges,
        CoversHundredth range := by
  have hiff := @generateErrors_noContext_isSome_iff K (Electrification K) cache (load cache)
    cache.electrifications [(1, checkEmpty), (2, checkElectrificationTrackRanges)] checkOverlapping
    (by simp)
  refine hiff.trans ((and_iff_right fun electrification _ c hc _ => ?_).trans ?_)
  · simp only [mem_cons, not_mem_nil, or_false] at hc
    rcases hc with rfl | rfl
    · rfl
    · exact checkTrackRanges_isSome _ _
  · rw [checkOverlapping, checkInsertions_isSome_iff, forall_mem_flatMap]
    exact forall₂_congr fun electrification _ => forall_mem_map

end Ranges

/-! ### Buffer stops -/

section BufferStops

variable [Zero K] [LinearOrder K] [Position K]

/-- The location of the buffer stop is compared with those of the buffer stops listed for its track: the
    track exists, the buffer stop is on it, and the number of buffer stops does not tell whether its place is
    right. -/
def ComparesLocations (cache : InfraCache K) (bufferStop : BufferStopCache K) : Prop :=
  let isLinkedStart := (load cache).hasNeighbour ⟨.Begin, bufferStop.track⟩
  let isLinkedEnd := (load cache).hasNeighbour ⟨.End, bufferStop.track⟩
  let listed := cache.getTrackRefsType bufferStop.track .BufferStop
  (∃ track, cache.trackSection bufferStop.track = some track ∧ 0 ≤ bufferStop.position ∧
    bufferStop.position ≤ track.length) ∧
  ¬(isLinkedEnd ∧ isLinkedStart) ∧
  ¬(listed.length = 1 ∨ listed.length = 2 ∧ ¬isLinkedEnd ∧ ¬isLinkedStart)

/-- The one buffer stop listed for the track is looked up: the track is linked at neither end. -/
def LooksUpSingle (cache : InfraCache K) (track : TrackSectionCache K) : Prop :=
  ¬(load cache).hasNeighbour track.getBegin ∧ ¬(load cache).hasNeighbour track.getEnd ∧
    (cache.getTrackRefsType track.objId .BufferStop).length = 1

/-- Every buffer stop listed for the track exists. -/
def ListedExist (cache : InfraCache K) (trackId : String) : Prop :=
  ∀ ref ∈ cache.getTrackRefsType trackId .BufferStop, (cache.bufferStop ref.objId).isSome

variable {stop : BufferStopCache K}

omit [Zero K] [LinearOrder K] [Position K] in
theorem BufferStops.checkInvalidRef_passes_iff :
    checkInvalidRef stop cache graph = some [] ↔ (cache.trackSection stop.track).isSome := by
  rw [checkInvalidRef]
  cases cache.trackSection stop.track <;> simp

omit [Position K] in
theorem BufferStops.checkOutOfRange_passes_iff : checkOutOfRange stop cache graph = some [] ↔
      ∃ track, cache.trackSection stop.track = some track ∧ 0 ≤ stop.position ∧
        stop.position ≤ track.length := by
  rw [checkOutOfRange]
  cases cache.trackSection stop.track with
  | none => simp
  | some track => simp [checkPosition]

omit [Zero K] [Position K] in
theorem BufferStops.checkOddLocation_isSome_iff : (checkOddLocation stop cache graph).isSome ↔
      (¬(graph.hasNeighbour ⟨.End, stop.track⟩ ∧ graph.hasNeighbour ⟨.Begin, stop.track⟩) →
        ¬((cache.getTrackRefsType stop.track .BufferStop).length = 1 ∨
          (cache.getTrackRefsType stop.track .BufferStop).length = 2 ∧
            ¬graph.hasNeighbour ⟨.End, stop.track⟩ ∧ ¬graph.hasNeighbour ⟨.Begin, stop.track⟩) →
        cache.getTrackRefsType stop.track .BufferStop ≠ [] ∧ ListedExist cache stop.track) := by
  simp only [checkOddLocation]
  split
  · next hlinked => exact iff_of_true rfl fun h => absurd hlinked h
  split
  · next hcount => exact iff_of_true rfl fun _ h => absurd hcount h
  next hlinked hcount =>
    rw [forall_prop_of_true hlinked, forall_prop_of_true hcount, ListedExist, ← Partial.mapM_isSome_iff]
    cases hstops : (cache.getTrackRefsType stop.track .BufferStop).mapM
      fun ref => cache.bufferStop ref.objId with
    | none => simp
    | some stops =>
      have hlength := Partial.length_of_mapM hstops
      rw [← @length_mergeSort _ (fun a b => decide (a.position ≤ b.position)) stops] at hlength
      simp only [bind_eq_bind, bind_some, Option.isSome_some, and_true]
      cases hsorted : stops.mergeSort (fun a b => decide (a.position ≤ b.position)) with
      | nil =>
        rw [hsorted] at hlength
        simpa using eq_nil_of_length_eq_zero hlength.symm
      | cons first rest =>
        rw [hsorted] at hlength
        refine iff_of_true ?_ fun hnil => by simp [hnil] at hlength
        simp only [head?_cons, getLast?_cons, bind_some]
        split <;> rfl

omit [Zero K] in
theorem BufferStops.checkMissingOn_isSome_iff {track : TrackSectionCache K} :
    (checkMissingOn cache (load cache) track).isSome ↔
      (LooksUpSingle cache track → ListedExist cache track.objId) := by
  simp only [checkMissingOn, LooksUpSingle, ListedExist]
  split
  · next hlinked => exact iff_of_true rfl fun h => absurd hlinked.1 h.1
  split
  · next hrefs => simp [hrefs]
  · next ref hrefs =>
    split
    · next hlinked =>
      refine iff_of_true rfl fun h => ?_
      exact absurd hlinked (not_or.mpr ⟨h.2.1, h.1⟩)
    · next hunlinked =>
      rw [not_or] at hunlinked
      cases hstop : cache.bufferStop ref.objId with
      | none => simp [hrefs, hstop, hunlinked]
      | some stop =>
        refine iff_of_true ?_ fun _ => by simp [hrefs, hstop]
        simp only [bind_eq_bind, bind_some]
        split <;> rfl
  · next hnil hsingle =>
    refine iff_of_true rfl fun h => ?_
    obtain ⟨ref, href⟩ := length_eq_one_iff.mp h.2.2
    exact absurd href (hsingle ref)

theorem BufferStops.generate_isSome_iff (cache : InfraCache K) : (generate cache).isSome ↔
      (∀ stop ∈ cache.bufferStops, ComparesLocations cache stop →
        cache.getTrackRefsType stop.track .BufferStop ≠ [] ∧ ListedExist cache stop.track) ∧
      ∀ track ∈ cache.trackSections, LooksUpSingle cache track → ListedExist cache track.objId := by
  have hiff := @generateErrors_noContext_isSome_iff K (BufferStopCache K) cache (load cache)
    cache.bufferStops [(1, checkInvalidRef), (2, checkOutOfRange), (3, checkOddLocation)] checkMissing
    (by simp)
  refine hiff.trans (and_congr (forall₂_congr fun stop _ => ?_) ?_)
  · constructor
    · rintro h ⟨htrack, hlinked, hcount⟩
      refine checkOddLocation_isSome_iff.mp (h (3, checkOddLocation) (by simp) fun d hd _ => ?_)
        hlinked hcount
      simp only [mem_cons, not_mem_nil, or_false] at hd
      rcases hd with rfl | rfl | rfl
      · obtain ⟨track, htrack, -⟩ := htrack
        exact (@checkInvalidRef_passes_iff K cache (load cache) stop).mpr
          (isSome_iff_exists.mpr ⟨track, htrack⟩)
      · exact (@checkOutOfRange_passes_iff K cache (load cache) _ _ stop).mpr htrack
      · omega
    · intro h c hc hlower
      simp only [mem_cons, not_mem_nil, or_false] at hc
      rcases hc with rfl | rfl | rfl
      · rfl
      · have hpass : checkInvalidRef stop cache (load cache) = some [] :=
          hlower (1, checkInvalidRef) (by simp) (by simp)
        obtain ⟨track, htrack⟩ := isSome_iff_exists.mp (checkInvalidRef_passes_iff.mp hpass)
        simp [checkOutOfRange, htrack]
      · have hpass : checkOutOfRange stop cache (load cache) = some [] :=
          hlower (2, checkOutOfRange) (by simp) (by simp)
        exact checkOddLocation_isSome_iff.mpr fun hlinked hcount =>
          h ⟨checkOutOfRange_passes_iff.mp hpass, hlinked, hcount⟩
  · rw [checkMissing, isSome_map, Partial.mapM_isSome_iff]
    exact forall₂_congr fun track _ => checkMissingOn_isSome_iff

end BufferStops

/-! ### All of them -/

section All

variable [Zero K] [LinearOrder K] [Position K]

/-- What the global generators need of the ranges, and the lookups of buffer stops of the references. -/
structure Generates (cache : InfraCache K) : Prop where
  speedSections : ∀ speedSection ∈ cache.speedSections, speedSection.hasPslSncf = false →
    (speedSection.speedLimit.isSome ∨ speedSection.speedLimitByTag ≠ []) →
    ∀ range ∈ speedSection.trackRanges, CoversHundredth range
  electrifications : ∀ electrification ∈ cache.electrifications,
    ∀ range ∈ electrification.trackRanges, CoversHundredth range
  comparedBufferStops : ∀ bufferStop ∈ cache.bufferStops, ComparesLocations cache bufferStop →
    cache.getTrackRefsType bufferStop.track .BufferStop ≠ [] ∧ ListedExist cache bufferStop.track
  singleBufferStops : ∀ track ∈ cache.trackSections, LooksUpSingle cache track →
    ListedExist cache track.objId

/-- The generators of the five types return exactly on those caches. -/
theorem generators_return_iff
    (computeTrackRangesOnRoute : InfraCache K → Route → Graph → Option (RoutePath K))
    (cache : InfraCache K) :
    ((Switches.generate cache).isSome ∧ (Routes.generate computeTrackRangesOnRoute cache).isSome ∧
      (BufferStops.generate cache).isSome ∧ (SpeedSections.generate cache).isSome ∧
      (Electrifications.generate cache).isSome) ↔ Generates cache := by
  rw [and_iff_right (Switches.generate_isSome cache),
    and_iff_right (Routes.generate_isSome computeTrackRangesOnRoute cache),
    BufferStops.generate_isSome_iff, SpeedSections.generate_isSome_iff,
    Electrifications.generate_isSome_iff]
  exact ⟨fun ⟨⟨hcompared, hsingle⟩, hspeed, helec⟩ => ⟨hspeed, helec, hcompared, hsingle⟩,
    fun h => ⟨⟨h.comparedBufferStops, h.singleBufferStops⟩, h.speedSections, h.electrifications⟩⟩

/-- The references to buffer stops are those of the buffer stops of the cache. -/
structure ExactBufferStopRefs (cache : InfraCache K) : Prop where
  exists_of_listed : ∀ trackId, ListedExist cache trackId
  listed : ∀ bufferStop ∈ cache.bufferStops,
    ⟨.BufferStop, bufferStop.objId⟩ ∈ cache.trackSectionsRefs bufferStop.track

/-- With exact references only a range that covers no hundredth makes a generator panic. -/
theorem generates_iff_of_exact {cache : InfraCache K} (hexact : ExactBufferStopRefs cache) :
    Generates cache ↔ (∀ speedSection ∈ cache.speedSections, speedSection.hasPslSncf = false →
        (speedSection.speedLimit.isSome ∨ speedSection.speedLimitByTag ≠ []) →
        ∀ range ∈ speedSection.trackRanges, CoversHundredth range) ∧
      ∀ electrification ∈ cache.electrifications, ∀ range ∈ electrification.trackRanges,
        CoversHundredth range := by
  refine ⟨fun h => ⟨h.speedSections, h.electrifications⟩, fun h => ⟨h.1, h.2, ?_, ?_⟩⟩
  · intro stop hstop _
    have hmem : (⟨.BufferStop, stop.objId⟩ : ObjectRef) ∈
        cache.getTrackRefsType stop.track .BufferStop :=
      mem_filter.mpr ⟨hexact.listed stop hstop, by simp⟩
    exact ⟨ne_nil_of_mem hmem, hexact.exists_of_listed _⟩
  · intro track _ _
    exact hexact.exists_of_listed _

end All

/-- Positions in exact numbers. -/
instance : Position ℚ where
  half x := x / 2
  hundredths x := min ⌊x * 100⌋₊ (2 ^ 64 - 1)

/-- A track with a speed section from 10 to 10. -/
def pointSpeedSection : InfraCache ℚ where
  trackSections := [⟨"T", 100⟩]
  bufferStops := []
  detectors := []
  switches := []
  switchTypes := []
  routes := []
  speedSections := [⟨"S", some 30, [], [⟨"T", 10, 10, .Both⟩], false⟩]
  electrifications := []
  trackSectionsRefs _ := []

/-- The object generators have nothing to report on the speed section, and the global one panics. -/
theorem generate_pointSpeedSection : checkObject pointSpeedSection (load pointSpeedSection)
      ⟨"S", some 30, [], [⟨"T", 10, 10, .Both⟩], false⟩ SpeedSections.objectGenerators false 0 {} =
      some ([], {}) ∧ SpeedSections.generate pointSpeedSection = none := by
  decide +kernel

end Osrd.InfraErrors
