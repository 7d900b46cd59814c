import Osrd.Infra.Edition
import Osrd.Infra.ReferenceIndex

/-! The objects of a cache and of the database, and when a failed edit leaves the cache alone.

    The transaction is rolled back when the edit fails, and the cache is not: from `apply_operations` on,
    every step that fails leaves a cache that has moved. A cache with the objects of the database takes all
    that the database takes, built-in nodes apart, so that only the later steps can fail. -/

namespace Osrd.Infra

open List

/-! ### The objects of a cache -/

variable {r : ObjectRef} {obj : ObjectCache}

namespace InfraCache

variable {s : InfraCache} {db db' : Database}

/-- The objects of the cache are those of the rows and the built-in nodes. -/
structure Holds (s : InfraCache) (rows : List InfraObject) : Prop where
  get_iff : ∀ r obj, s.get r = some obj ↔
    ((∃ row ∈ rows, row.toObjectCache = obj) ∨ obj ∈ builtinNodes) ∧ obj.getRef = r
  apart : ∀ row ∈ rows, ∀ node ∈ builtinNodes, node.getRef ≠ row.getRef

theorem get_applyCreate (hok : (s.applyCreate obj).2 = .ok ()) (r : ObjectRef) :
    (s.applyCreate obj).1.get r = if r = obj.getRef then some obj else s.get r := by
  have hnone := (applyCreate_ok_iff obj).mp hok
  cases obj <;> exact (congrArg (fun o : Outcome => o.1.get r) (add_of_none hnone)).trans
    (get_setObject _ _ _)

theorem get_applyDelete (hok : (s.applyDelete r).2 = .ok ()) (r' : ObjectRef) :
    (s.applyDelete r).1.get r' = if r' = r then none else s.get r' := by
  rw [← get_setObject]
  rw [applyDelete] at hok ⊢
  split at hok
  · cases hok
  · next obj hobj =>
    simp only
    split <;> rfl

theorem get_applyUpdate (hok : (s.applyUpdate obj).2 = .ok ()) (r : ObjectRef) :
    (s.applyUpdate obj).1.get r = if r = obj.getRef then some obj else s.get r := by
  rw [applyUpdate] at hok ⊢
  rcases hdelete : s.applyDelete obj.getRef with ⟨s', e | ⟨⟩⟩
  · rw [hdelete] at hok
    cases hok
  · rw [hdelete] at hok
    have hget := get_applyDelete (s := s) (r := obj.getRef) (by rw [hdelete]) r
    rw [hdelete] at hget
    simp only [get_applyCreate hok, hget]
    split <;> rfl

/-- One object of the rows and of the cache is set, or taken out, in the same way. -/
theorem Holds.set {s' : InfraCache} {rows rows' : List InfraObject} {o : Option InfraObject}
    (h : Holds s rows)
    (hget : ∀ r', s'.get r' = if r' = r then o.map InfraObject.toObjectCache else s.get r')
    (hrows : ∀ row, row ∈ rows' ↔ o = some row ∨ (row ∈ rows ∧ row.getRef ≠ r))
    (href : ∀ row, o = some row → row.getRef = r) (hnode : ∀ node ∈ builtinNodes, node.getRef ≠ r) :
    Holds s' rows' where
  get_iff r' obj := by
    rw [hget]
    by_cases hr : r' = r
    · subst hr
      rw [if_pos rfl, Option.map_eq_some_iff]
      constructor
      · rintro ⟨row, ho, rfl⟩
        exact ⟨.inl ⟨row, (hrows row).mpr (.inl ho), rfl⟩, href row ho⟩
      · rintro ⟨⟨row, hrow, rfl⟩ | hmem, heq⟩
        · exact ⟨row, ((hrows row).mp hrow).resolve_right fun hother => hother.2 heq, rfl⟩
        · exact absurd heq (hnode obj hmem)
    · rw [if_neg hr, h.get_iff]
      constructor
      · rintro ⟨⟨row, hrow, rfl⟩ | hmem, rfl⟩
        · exact ⟨.inl ⟨row, (hrows row).mpr (.inr ⟨hrow, hr⟩), rfl⟩, rfl⟩
        · exact ⟨.inr hmem, rfl⟩
      · rintro ⟨⟨row, hrow, rfl⟩ | hmem, rfl⟩
        · rcases (hrows row).mp hrow with ho | ⟨hrow, -⟩
          · exact absurd (href row ho) hr
          · exact ⟨.inl ⟨row, hrow, rfl⟩, rfl⟩
        · exact ⟨.inr hmem, rfl⟩
  apart row hrow node hmem := by
    rcases (hrows row).mp hrow with ho | ⟨hrow, -⟩
    · exact href row ho ▸ hnode node hmem
    · exact h.apart row hrow node hmem

end InfraCache

/-! ### What the operations do to the rows -/

namespace Database

variable {db db' : Database}

theorem mem_of_find {obj : InfraObject} (h : db.find r = some obj) : obj ∈ db.rows ∧ obj.getRef = r :=
  ⟨mem_of_find?_eq_some h, by simpa using find?_some h⟩

theorem insert_rows {obj : InfraObject} (h : db.insert obj = .ok db') (obj' : InfraObject) :
    obj' ∈ db'.rows ↔ some obj = some obj' ∨ (obj' ∈ db.rows ∧ obj'.getRef ≠ obj.getRef) := by
  rw [insert] at h
  split at h
  · cases h
  · next hfresh =>
    cases h
    have hne : obj' ∈ db.rows → obj'.getRef ≠ obj.getRef := fun hmem heq =>
      hfresh (heq ▸ mem_map_of_mem hmem)
    simp only [mem_append, mem_singleton, Option.some.injEq]
    tauto

theorem replace_rows {obj row : InfraObject} (hrow : row ∈ db.rows)
    (href : row.getRef = obj.getRef) (obj' : InfraObject) : obj' ∈ (db.replace obj).rows ↔
      some obj = some obj' ∨ (obj' ∈ db.rows ∧ obj'.getRef ≠ obj.getRef) := by
  simp only [replace, mem_map, Option.some.injEq]
  constructor
  · rintro ⟨row', hrow', heq⟩
    split at heq
    · exact .inl heq
    · next hne => exact .inr (heq ▸ ⟨hrow', hne⟩)
  · rintro (rfl | ⟨hmem, hne⟩)
    · exact ⟨row, hrow, if_pos href⟩
    · exact ⟨obj', hmem, if_neg hne⟩

theorem erase_rows (obj' : InfraObject) :
    obj' ∈ (db.erase r).rows ↔ none = some obj' ∨ (obj' ∈ db.rows ∧ obj'.getRef ≠ r) := by
  simp [erase]

end Database

namespace Operation

variable {db db' : Database} {infraId : ℤ} {fails : Bool} {railjson : Option InfraObject}

theorem apply_create {obj : InfraObject} (h : (Create obj).apply infraId fails db = .ok (db', railjson)) :
    db.insert obj = .ok db' ∧ railjson = some obj := by
  obtain ⟨db₁, hcreate, h⟩ := Answer.bind_eq_ok.mp h
  split at h
  · cases h
  cases h
  rw [applyCreateOperation] at hcreate
  split at hcreate
  · cases hcreate
  exact ⟨hcreate, rfl⟩

theorem getRef_of_patchAndCheck {objId : String} {patch : Patch} {row obj : InfraObject}
    (hid : row.getRef.objId = objId) (h : patchAndCheck objId patch row = .ok obj) :
    row.getRef = obj.getRef := by
  rw [patchAndCheck] at h
  split at h
  · cases h
  next railjson hpatch =>
  split at h
  · cases h
  next hkept =>
  cases h
  have htype := patch.objType_apply hpatch
  exact (ObjectRef.mk.injEq .. ▸ ⟨htype, (not_not.mp hkept).trans hid.symm⟩ : obj.getRef = _).symm

variable {objId : String} {objType : ObjectType}

theorem apply_update {patch : Patch}
    (h : (Update objId objType patch).apply infraId fails db = .ok (db', railjson)) :
    ∃ row ∈ db.rows, ∃ obj, row.getRef = obj.getRef ∧ db' = db.replace obj ∧ railjson = some obj := by
  obtain ⟨⟨db₁, obj⟩, hupdate, h⟩ := Answer.bind_eq_ok.mp h
  simp only at h
  split at h
  · cases h
  cases h
  rw [applyUpdateOperation] at hupdate
  split at hupdate
  · cases hupdate
  next row hfind =>
  obtain ⟨obj₁, hpatch, hupdate⟩ := Answer.bind_eq_ok.mp hupdate
  cases hupdate
  obtain ⟨hrow, href⟩ := Database.mem_of_find hfind
  exact ⟨row, hrow, obj, getRef_of_patchAndCheck (href ▸ rfl) hpatch, rfl, rfl⟩

theorem apply_delete (h : (Delete objId objType).apply infraId fails db = .ok (db', railjson)) :
    (∃ row ∈ db.rows, row.getRef = ⟨objType, objId⟩) ∧ db' = db.erase ⟨objType, objId⟩ := by
  obtain ⟨db₁, hdelete, h⟩ := Answer.bind_eq_ok.mp h
  split at h
  · cases h
  cases h
  rw [applyDeleteOperation] at hdelete
  split at hdelete
  · cases hdelete
  next row hfind =>
  cases hdelete
  exact ⟨⟨row, Database.mem_of_find hfind⟩, rfl⟩

end Operation

namespace InfraCache

variable {s : InfraCache} {db db' : Database}

section Apply

variable {operation : Operation} {infraId : ℤ} {fails : Bool} {railjson : Option InfraObject}
  {op : CacheOperation}

/-- An operation of an edit, on the database and on the cache. -/
theorem Holds.apply (h : Holds s db.rows) (hdb : operation.apply infraId fails db = .ok (db', railjson))
    (hop : operation.cacheOperation railjson = .ok op)
    (hok : (s.applyOperation op).2 = .ok ()) : Holds (s.applyOperation op).1 db'.rows := by
  cases operation with
  | Create obj =>
    obtain ⟨hinsert, rfl⟩ := Operation.apply_create hdb
    cases hop
    have hnone : s.get obj.getRef = none := (applyCreate_ok_iff _).mp hok
    refine h.set (o := some obj) (get_applyCreate hok) (Database.insert_rows hinsert) (fun _ ho => ?_) ?_
    · exact Option.some.inj ho ▸ rfl
    · intro node hnode heq
      exact nomatch hnone.symm.trans ((h.get_iff _ _).mpr ⟨.inr hnode, heq⟩)
  | Update objId objType patch =>
    obtain ⟨row, hrow, obj, href, rfl, rfl⟩ := Operation.apply_update hdb
    cases hop
    refine h.set (o := some obj) (get_applyUpdate hok) (Database.replace_rows hrow href) (fun _ ho => ?_) ?_
    · exact Option.some.inj ho ▸ rfl
    · exact fun node hnode heq => h.apart row hrow node hnode (heq.trans href.symm)
  | Delete objId objType =>
    obtain ⟨⟨row, hrow, href⟩, rfl⟩ := Operation.apply_delete hdb
    cases hop
    refine h.set (o := none) (get_applyDelete hok) Database.erase_rows (fun _ ho => (nomatch ho)) ?_
    exact fun node hnode => href ▸ h.apart row hrow node hnode

end Apply

theorem Holds.applyAll {infraId : ℤ} : ∀ {operations : List Operation} {fails : ℕ → Bool}
    {s : InfraCache} {db : Database} {edited : Edited}, Holds s db.rows →
    applyAll infraId fails db operations = .ok edited →
    (s.applyOperations edited.cacheOperations).2 = .ok () →
    Holds (s.applyOperations edited.cacheOperations).1 edited.database.rows
  | [], fails, s, db, edited, h, hall, hok => by
    cases hall
    exact h
  | operation :: operations, fails, s, db, edited, h, hall, hok => by
    obtain ⟨⟨db₁, railjson⟩, hdb, hall⟩ := Answer.bind_eq_ok.mp hall
    obtain ⟨op, hop, hall⟩ := Answer.bind_eq_ok.mp hall
    obtain ⟨edited₁, hrest, hall⟩ := Answer.bind_eq_ok.mp hall
    cases hall
    rw [applyOperations] at hok ⊢
    rcases hcache : s.applyOperation op with ⟨s₁, e | ⟨⟩⟩
    · rw [hcache] at hok
      cases hok
    · rw [hcache] at hok
      have h₁ := h.apply hdb hop (by rw [hcache])
      rw [hcache] at h₁
      exact h₁.applyAll hrest hok

theorem applyCreate_infraVersion (obj : ObjectCache) :
    (s.applyCreate obj).1.infraVersion = s.infraVersion := by
  cases obj <;> (simp only [applyCreate, add]; split <;> rfl)

theorem get_applyCreate_eq_some_iff (hok : (s.applyCreate obj).2 = .ok ()) (r : ObjectRef)
    (obj' : ObjectCache) : (s.applyCreate obj).1.get r = some obj' ↔
      s.get r = some obj' ∨ (obj' = obj ∧ obj'.getRef = r) := by
  have hnone := (applyCreate_ok_iff obj).mp hok
  rw [get_applyCreate hok]
  split
  · next hr =>
    subst hr
    rw [hnone, Option.some.injEq]
    constructor
    · rintro rfl
      exact .inr ⟨rfl, rfl⟩
    · rintro (hfalse | ⟨rfl, -⟩)
      · cases hfalse
      · rfl
  · next hr =>
    constructor
    · exact .inl
    · rintro (hget | ⟨rfl, heq⟩)
      · exact hget
      · exact absurd heq.symm hr

/-- Adding objects that are all taken. -/
theorem addAll_ok : ∀ {objs : List ObjectCache} {s : InfraCache}, (s.addAll objs).2 = .ok () →
    (s.addAll objs).1.infraVersion = s.infraVersion ∧ (Exact s → Exact (s.addAll objs).1) ∧
    (objs.map ObjectCache.getRef).Nodup ∧ (∀ obj ∈ objs, s.get obj.getRef = none) ∧
      ∀ r obj, (s.addAll objs).1.get r = some obj ↔ s.get r = some obj ∨ (obj ∈ objs ∧ obj.getRef = r)
  | [], s, _ => by simp [addAll]
  | obj :: objs, s, hok => by
    rw [addAll] at hok ⊢
    rcases hcreate : s.applyCreate obj with ⟨s₁, e | ⟨⟩⟩
    · rw [hcreate] at hok
      cases hok
    rw [hcreate] at hok
    have hversion := applyCreate_infraVersion (s := s) obj
    have hcreated : (s.applyCreate obj).2 = .ok () := by rw [hcreate]
    have hget := get_applyCreate_eq_some_iff hcreated
    have hkeeps := fun hexact => (applyCreate_exact_iff hexact obj).mpr
      (.inl ((applyCreate_ok_iff obj).mp hcreated))
    rw [hcreate] at hversion hget hkeeps
    obtain ⟨hversion', hexact', hnodup, hfresh, hiff⟩ := addAll_ok hok
    have hother : ∀ obj' ∈ objs, obj'.getRef ≠ obj.getRef ∧ s.get obj'.getRef = none := by
      intro obj' hmem
      refine ⟨fun heq => ?_, Option.eq_none_iff_forall_ne_some.mpr fun other hother => ?_⟩
      · exact nomatch (hfresh obj' hmem).symm.trans ((hget _ obj).mpr (.inr ⟨rfl, heq.symm⟩))
      · exact nomatch (hfresh obj' hmem).symm.trans ((hget _ other).mpr (.inl hother))
    refine ⟨hversion'.trans hversion, fun hexact => hexact' (hkeeps hexact), ?_, ?_, fun r obj' => ?_⟩
    · rw [map_cons, nodup_cons]
      refine ⟨fun hmem => ?_, hnodup⟩
      obtain ⟨obj', hobj', heq⟩ := mem_map.mp hmem
      exact (hother obj' hobj').1 heq
    · rintro obj' hmem
      rcases mem_cons.mp hmem with rfl | hmem
      · exact (applyCreate_ok_iff obj').mp hcreated
      · exact (hother obj' hmem).2
    · rw [hiff, hget, mem_cons, or_and_right, or_assoc]

theorem mem_loadOrder (objType : ObjectType) : objType ∈ loadOrder := by
  cases objType <;> decide

/-- A load gives the objects of the database and an exact table, at version 0. -/
theorem load_ok {fails : Bool} (h : load db fails = .ok s) :
    Holds s db.rows ∧ Exact s ∧ s.infraVersion = 0 := by
  rw [load] at h
  split at h
  · cases h
  simp only at h
  split at h
  · next s' hfrom =>
    cases h
    rw [fromObjects] at hfrom
    split at hfrom
    · next s' hadd =>
      cases hfrom
      obtain ⟨hversion, hexact, hnodup, -, hiff⟩ := addAll_ok (congrArg Prod.snd hadd)
      rw [hadd] at hversion hiff hexact
      have hmem : ∀ obj, (obj ∈ loadOrder.flatMap fun objType =>
          (db.rows.filter (·.getRef.objType = objType)).map (·.toObjectCache)) ↔
            ∃ row ∈ db.rows, row.toObjectCache = obj := by
        intro obj
        simp only [mem_flatMap, mem_map, mem_filter, decide_eq_true_eq]
        exact ⟨fun ⟨_, _, row, h, heq⟩ => ⟨row, h.1, heq⟩,
          fun ⟨row, h, heq⟩ => ⟨_, mem_loadOrder _, row, ⟨h, rfl⟩, heq⟩⟩
      refine ⟨⟨fun r obj => ?_, fun row hrow node hnode => ?_⟩, hexact default_exact, hversion⟩
      · rw [hiff, mem_append, hmem]
        exact or_iff_right (nomatch ·)
      · rw [map_append] at hnodup
        exact fun heq => (nodup_append.mp hnodup).2.2 _
          (mem_map_of_mem ((hmem _).mpr ⟨row, hrow, rfl⟩)) _ (mem_map_of_mem hnode) heq.symm
    · cases hfrom
  · cases h

end InfraCache

/-! ### When a failed edit leaves the cache alone -/

section Edit

variable {env : Environment} {appVersion : Option String} {edited : Edited} {w : World}

theorem publish_cache : (publish env appVersion edited w).1.cache =
    { w.cache with infraVersion := w.infra.version } := by
  simp only [publish]
  split
  · rfl
  · split <;> split <;> first | rfl | (split <;> rfl)

end Edit

/-- Every step succeeds. -/
def Environment.reliable : Environment := ⟨fun _ => false, false, false, false, false, false, false⟩

/-- A new infrastructure without objects, with the cache that is loaded for it. -/
def emptyWorld : World where
  database := ⟨⟨1, 0, none, false⟩, [], nodup_nil⟩
  infra := ⟨1, 0, none, false⟩
  cache := (InfraCache.default.addAll InfraCache.builtinNodes).1
  valkey := []

/-- A track. -/
def trackT : InfraObject := ⟨.TrackSection ⟨"T", "\"length\": 100"⟩, ""⟩

end Osrd.Infra
