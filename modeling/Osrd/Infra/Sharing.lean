import Osrd.Infra.CachedObjects
import Mathlib.Data.List.Sort

/-! Model of `get_or_load_mut` (`editoast/src/infra_cache/mod.rs`) and of editoast instances that share a
    database and a cache server, each with its own cache of one infrastructure.

    A cache that is loaded from the database keeps version 0, and an outdated cache is always loaded
    again: an edit is written to the cache server as one array, read back as single operations, and no
    array is a single operation. Along the runs that read the database at version 0 only, a cache at
    version `v` has the objects that the database had at `v` (`Coherent`). -/

namespace Osrd.Infra

open Function List

/-! ### Loading -/

/-- A text read as one operation: no array is one. -/
def Json.toCacheOperation : Json → Option CacheOperation
  | .array _ => none
  | .operation op => some op

/-- The members of a score in the range, by score, read as operations. -/
def Valkey.jsonZrangebyscore (valkey : Valkey) (key : String) (min max : ℤ) :
    List (Option CacheOperation) :=
  let members := valkey.filter fun m => m.key = key ∧ min ≤ m.score ∧ m.score ≤ max
  (members.insertionSort (·.score ≤ ·.score)).map (·.json.toCacheOperation)

/-- Which steps of a load end with an error. -/
structure LoadEnvironment where
  load : Bool
  getConnection : Bool
  jsonZrangebyscore : Bool

/-- The entry of the map of caches after the call, and the cache that the call returns. -/
def getOrLoadMut (env : LoadEnvironment) (appVersion : Option String) (db : Database)
    (valkey : Valkey) (infra : InfraRow) (entry : Option InfraCache) :
    Option InfraCache × Except EditError InfraCache :=
  match entry with
  | none =>
      match InfraCache.load db env.load with
      | .error e => (none, .error e)
      | .ok s => (some s, .ok s)
  | some s =>
      if infra.version ≤ s.infraVersion then (some s, .ok s)
      else
        let expectedPatchCount := (infra.version - s.infraVersion).toNat
        if env.getConnection || env.jsonZrangebyscore then (some s, .error .CacheServer)
        else
          let cacheOperations := (valkey.jsonZrangebyscore (getPatchKey infra.id appVersion)
            (s.infraVersion + 1) infra.version).reduceOption
          if cacheOperations.length ≠ expectedPatchCount then
            match InfraCache.load db env.load with
            | .error e => (some s, .error e)
            | .ok s => (some s, .ok s)
          else
            match s.applyOperations cacheOperations with
            | (s, .error e) => (some s, .error (.CacheOperation e))
            | (s, .ok ()) =>
                let s := { s with infraVersion := infra.version }
                (some s, .ok s)

/-! ### Instances -/

/-- The instances `I` with what they share. -/
structure System (I : Type) where
  database : Database
  valkey : Valkey
  caches : I → Option InfraCache
  /-- The objects that the database had when the version was written. -/
  atVersion : ℤ → List InfraObject

/-- A call of an instance, with the row that it has read. -/
inductive Call (I : Type)
  | getOrLoadMut (i : I) (env : LoadEnvironment) (appVersion : Option String) (infra : InfraRow)
  | applyEdit (i : I) (env : Environment) (appVersion : Option String) (infra : InfraRow)
      (operations : List Operation)

/-- The row that the call is given. -/
def Call.infra {I : Type} : Call I → InfraRow
  | .getOrLoadMut _ _ _ infra => infra
  | .applyEdit _ _ _ infra _ => infra

namespace System

variable {I : Type} [DecidableEq I]

/-- What a `get_or_load_mut` of the instance answers. -/
def answer (s : System I) (i : I) (env : LoadEnvironment) (appVersion : Option String)
    (infra : InfraRow) : Except EditError InfraCache :=
  (getOrLoadMut env appVersion s.database s.valkey infra (s.caches i)).2

/-- The system after a call; an edit is made on the cache of the instance and must succeed. -/
def step (s : System I) : Call I → Option (System I)
  | .getOrLoadMut i env appVersion infra =>
      let (entry, _) := getOrLoadMut env appVersion s.database s.valkey infra (s.caches i)
      some { s with caches := update s.caches i entry }
  | .applyEdit i env appVersion infra operations =>
      match s.caches i with
      | none => none
      | some cache =>
          match applyEdit env appVersion operations ⟨s.database, infra, cache, s.valkey⟩ with
          | (w, .ok _) => some {
              database := w.database
              valkey := w.valkey
              caches := update s.caches i (some w.cache)
              atVersion := update s.atVersion w.infra.version w.database.rows }
          | _ => none

/-- A new infrastructure: version 0, and nothing cached. -/
structure Initial (s : System I) : Prop where
  version : s.database.infra.version = 0
  rows : s.atVersion 0 = s.database.rows
  valkey : s.valkey = []
  caches : ∀ i, s.caches i = none

/-- The systems reached by allowed calls. -/
inductive Run (allowed : System I → Call I → Prop) : System I → Prop
  | initial {s : System I} : Initial s → Run allowed s
  | step {s s' : System I} {call : Call I} :
      Run allowed s → allowed s call → s.step call = some s' → Run allowed s'

end System

/-! ### Runs -/

variable {appVersion : Option String}

theorem publish_ok {env : Environment} {edited : Edited} {w w' : World} {railjsons : List InfraObject}
    (h : publish env appVersion edited w = (w', .ok railjsons)) :
    w'.database = { edited.database with infra := w'.infra } ∧ w'.infra.version = w.infra.version := by
  cases hconnection : env.getConnection <;> cases hzadd : env.jsonZadd <;>
    cases hupdate : env.updateAll <;> cases hfails : env.bumpGeneratedVersion || env.commit <;>
      simp [publish, hconnection, hzadd, hupdate, hfails] at h <;> simp [← h.1]

theorem applyEdit_ok {env : Environment} {operations : List Operation} {w w' : World}
    {railjsons : List InfraObject} (h : applyEdit env appVersion operations w = (w', .ok railjsons)) :
    ∃ edited, applyAll w.infra.id env.operation w.database operations = .ok edited ∧
      (w.cache.applyOperations edited.cacheOperations).2 = .ok () ∧
      w'.cache = { (w.cache.applyOperations edited.cacheOperations).1 with
        infraVersion := w.infra.version + 1 } ∧
      w'.database = { edited.database with infra := w'.infra } ∧
      w'.infra.version = w.infra.version + 1 := by
  rw [applyEdit] at h
  split at h
  · cases h
  split at h
  · cases h
  · cases h
  next edited hall =>
  simp only at h
  split at h
  · cases h
  split at h
  · cases h
  next cache hcache =>
  refine ⟨edited, hall, by rw [hcache], ?_, publish_ok h⟩
  rw [hcache, ← congrArg (·.1.cache) h, publish_cache]

namespace System

open InfraCache

variable {I : Type} {s : System I}

/-- A call reads the database at version 0 only: the instance has a cache at the version of the row that
    it has read, or has none and nothing was edited. An edit is made by an instance that is up to date. -/
def Timely (s : System I) : Call I → Prop
  | .getOrLoadMut i _ _ infra =>
      (∃ cache, s.caches i = some cache ∧ cache.infraVersion = infra.version) ∨
        (s.caches i = none ∧ infra.version = 0 ∧ s.database.infra.version = 0)
  | .applyEdit i _ _ infra _ => infra.version = s.database.infra.version ∧
      ∀ cache, s.caches i = some cache → cache.infraVersion = infra.version

/-- A cache has the objects that the database had at the version of the cache. -/
structure UpTo (s : System I) (cache : InfraCache) : Prop where
  version : cache.infraVersion ≤ s.database.infra.version
  holds : Holds cache (s.atVersion cache.infraVersion)

structure Coherent (s : System I) : Prop where
  current : s.atVersion s.database.infra.version = s.database.rows
  caches : ∀ i cache, s.caches i = some cache → s.UpTo cache

/-- What a timely call answers, or leaves with the instance, is the cache at the version of the row. -/
theorem Coherent.getOrLoadMut (h : Coherent s) {i : I} {env : LoadEnvironment} {infra : InfraRow}
    (ht : s.Timely (.getOrLoadMut i env appVersion infra)) {entry : Option InfraCache}
    {answer : Except EditError InfraCache} {cache : InfraCache}
    (hcall : getOrLoadMut env appVersion s.database s.valkey infra (s.caches i) = (entry, answer))
    (hcache : entry = some cache ∨ answer = .ok cache) :
    s.UpTo cache ∧ cache.infraVersion = infra.version := by
  rcases ht with ⟨cache', hentry, hversion⟩ | ⟨hnone, hversion, hzero⟩
  · rw [hentry, Infra.getOrLoadMut, if_pos hversion.ge] at hcall
    cases hcall
    have heq : cache' = cache := hcache.elim Option.some.inj Except.ok.inj
    subst heq
    exact ⟨h.caches i _ hentry, hversion⟩
  · rw [hnone, Infra.getOrLoadMut] at hcall
    split at hcall
    · cases hcall
      exact hcache.elim (nomatch ·) (nomatch ·)
    next cache' hload =>
    cases hcall
    have heq : cache' = cache := hcache.elim Option.some.inj Except.ok.inj
    subst heq
    obtain ⟨hholds, -, hlabel⟩ := load_ok hload
    refine ⟨⟨by rw [hlabel, hzero], ?_⟩, by rw [hlabel, hversion]⟩
    rw [hlabel, ← hzero, h.current]
    exact hholds

theorem Initial.coherent (h : Initial s) : Coherent s where
  current := by rw [h.version, h.rows]
  caches i cache hcache := nomatch (h.caches i).symm.trans hcache

/-- A new infrastructure without objects. -/
def empty : System I where
  database := emptyWorld.database
  valkey := []
  caches := fun _ => none
  atVersion := fun _ => []

theorem empty_initial : Initial (empty : System I) := ⟨rfl, rfl, rfl, fun _ => rfl⟩

variable [DecidableEq I]

theorem Coherent.step (h : Coherent s) {call : Call I} {s' : System I} (ht : s.Timely call)
    (hstep : s.step call = some s') : Coherent s' := by
  cases call with
  | getOrLoadMut i env appVersion infra =>
    cases hstep
    refine ⟨h.current, fun j cache hcache => ?_⟩
    rcases eq_or_ne j i with rfl | hne
    · have hentry := (update_self j _ s.caches).symm.trans hcache
      obtain ⟨hversion, hholds⟩ := (h.getOrLoadMut ht rfl (.inl hentry)).1
      exact ⟨hversion, hholds⟩
    · obtain ⟨hversion, hholds⟩ := h.caches j cache ((update_of_ne hne ..).symm.trans hcache)
      exact ⟨hversion, hholds⟩
  | applyEdit i env appVersion infra operations =>
    rw [System.step] at hstep
    split at hstep
    · cases hstep
    next cache hcache =>
    split at hstep
    · next w railjsons hedit =>
      cases hstep
      obtain ⟨edited, hall, hok, hwcache, hdatabase, hversion⟩ := applyEdit_ok hedit
      have hinfra := ht.1
      have hup := h.caches i cache hcache
      have hlabel := ht.2 cache hcache
      have hholds : Holds cache s.database.rows := by
        rw [← h.current, ← hinfra, ← hlabel]
        exact hup.holds
      have hafter := hholds.applyAll hall hok
      refine ⟨?_, fun j cache' hcache' => ?_⟩
      · simp only [hdatabase, update_self]
      · rcases eq_or_ne j i with rfl | hne
        · simp only [update_self, Option.some.injEq] at hcache'
          subst hcache'
          refine ⟨by simp only [hwcache, hdatabase, hversion, le_refl], ?_⟩
          simp only [hwcache, hversion, update_self, hdatabase]
          exact ⟨hafter.get_iff, hafter.apart⟩
        · simp only [update_of_ne hne] at hcache'
          obtain ⟨hle, hholds'⟩ := h.caches j cache' hcache'
          have hlt : cache'.infraVersion < w.infra.version := by
            simp only at hversion
            omega
          refine ⟨by simp only [hdatabase]; exact hlt.le, ?_⟩
          simp only [update_of_ne hlt.ne]
          exact hholds'
    · cases hstep

theorem Run.coherent (h : Run Timely s) : Coherent s := by
  induction h with
  | initial hinitial => exact hinitial.coherent
  | step _ ht hstep ih => exact ih.step ht hstep

/-- In a run of timely calls, a cache that `get_or_load_mut` returns has the version of the row that it was
    given, and the objects that the database had at that version. -/
theorem run_getOrLoadMut_coherent (h : Run Timely s) {i : I} {env : LoadEnvironment}
    {appVersion : Option String} {infra : InfraRow} {cache : InfraCache}
    (ht : s.Timely (.getOrLoadMut i env appVersion infra))
    (hanswer : s.answer i env appVersion infra = .ok cache) :
    Holds cache (s.atVersion infra.version) ∧ cache.infraVersion = infra.version := by
  obtain ⟨hup, hversion⟩ := h.coherent.getOrLoadMut ht rfl (.inr hanswer)
  exact ⟨hversion ▸ hup.holds, hversion⟩

/-- The system once an instance has loaded the cache. -/
def emptyLoaded : System Bool :=
  { (empty : System Bool) with caches := update (fun _ => none) false (some emptyWorld.cache) }

/-- The system once that instance has created a track. -/
def trackCreated : System Bool where
  database := ⟨⟨1, 1, some 1, false⟩, [trackT], nodup_singleton _⟩
  valkey := [⟨getPatchKey 1 none, 1, .array [.Create trackT.toObjectCache]⟩]
  caches := update emptyLoaded.caches false (some { default with
    objects := (emptyWorld.cache.applyCreate trackT.toObjectCache).1.objects
    infraVersion := 1 })
  atVersion := update (fun _ => []) 1 [trackT]

theorem emptyLoaded_step : (empty : System Bool).step
    (.getOrLoadMut false ⟨false, false, false⟩ none ⟨1, 0, none, false⟩) = some emptyLoaded := rfl

theorem trackCreated_step : emptyLoaded.step (.applyEdit false .reliable none ⟨1, 0, none, false⟩
    [.Create trackT]) = some trackCreated := rfl

/-- An instance loads the cache, creates a track, and asks for the cache again. -/
theorem run_getOrLoadMut_after_edit : Run Timely trackCreated ∧ ∃ cache,
      trackCreated.answer false ⟨false, false, false⟩ none trackCreated.database.infra = .ok cache ∧
        Holds cache [trackT] ∧ cache.infraVersion = 1 := by
  have hload : Run Timely emptyLoaded := by
    refine .step (.initial empty_initial) ?_ emptyLoaded_step
    exact .inr ⟨rfl, rfl, rfl⟩
  have hedit : Run Timely trackCreated := by
    refine .step hload ?_ trackCreated_step
    exact ⟨rfl, fun cache hcache => Option.some.inj hcache ▸ rfl⟩
  have hcached : trackCreated.Timely (.getOrLoadMut false ⟨false, false, false⟩ none
      trackCreated.database.infra) := .inl ⟨_, rfl, rfl⟩
  exact ⟨hedit, _, rfl, run_getOrLoadMut_coherent hedit hcached rfl⟩

/-- Another instance then asks for its first cache, with the row that is in the database. The answer has
    version 0, the row version 1. -/
theorem run_first_load_version_zero :
    Run (fun s call => call.infra = s.database.infra) trackCreated ∧ ∃ cache,
      trackCreated.answer true ⟨false, false, false⟩ none trackCreated.database.infra = .ok cache ∧
        trackCreated.database.infra.version = 1 ∧ cache.infraVersion = 0 := by
  have hload : Run (fun s call => call.infra = s.database.infra) emptyLoaded :=
    .step (.initial empty_initial) rfl emptyLoaded_step
  exact ⟨.step hload rfl trackCreated_step, _, rfl, rfl, rfl⟩

end System

end Osrd.Infra
