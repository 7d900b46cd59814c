import Osrd.Infra.InfraCache

/-! Model of `apply_edit` (`editoast/src/views/infra/edition.rs`) and of the operations it applies to the
    database (`editoast/src/infra_cache/operation/*.rs`).

    The answers of the database and of the cache server are inputs (`Environment`). -/

namespace Osrd.Infra

/-- An object of the database: the fields that the cache stores, and the others. -/
structure InfraObject where
  cached : ObjectCache
  fields : Fields

namespace InfraObject

def getRef (obj : InfraObject) : ObjectRef := obj.cached.getRef

/-- `From<InfraObject> for ObjectCache` -/
def toObjectCache (obj : InfraObject) : ObjectCache := obj.cached

end InfraObject

/-! ### The database -/

structure InfraRow where
  id : ℤ
  version : ℤ
  generatedVersion : Option ℤ
  locked : Bool

/-- The row of an infrastructure and its objects; a table holds an id once. -/
structure Database where
  infra : InfraRow
  rows : List InfraObject
  unique : (rows.map InfraObject.getRef).Nodup

inductive EditError
  | InfraIsLocked (infraId : ℤ)
  | ObjectNotFound (objId : String) (infraId : ℤ)
  | EmptyId
  | ModifyId
  | InvalidPatch (error : String)
  | CacheOperation (error : CacheOperationError)
  | Database
  | CacheServer

/-- What a call ends with. -/
inductive Answer (α : Type)
  | ok (a : α)
  | err (e : EditError)
  | panic

namespace Answer

variable {α β : Type}

def bind (x : Answer α) (f : α → Answer β) : Answer β :=
  match x with
  | ok a => f a
  | err e => err e
  | panic => panic

instance : Monad Answer where
  pure := ok
  bind := bind

theorem bind_eq_ok {x : Answer α} {f : α → Answer β} {b : β} :
    (x >>= f) = ok b ↔ ∃ a, x = ok a ∧ f a = ok b := by
  cases x with
  | ok a => exact ⟨fun h => ⟨a, rfl, h⟩, fun ⟨_, h, hf⟩ => ok.inj h ▸ hf⟩
  | err e => exact ⟨fun h => (nomatch h), fun ⟨_, h, _⟩ => (nomatch h)⟩
  | panic => exact ⟨fun h => (nomatch h), fun ⟨_, h, _⟩ => (nomatch h)⟩

end Answer

/-- A JSON patch, as what it makes of an object that is then read as an object of the same type. -/
structure Patch where
  apply : InfraObject → Except String InfraObject
  objType_apply : ∀ {obj obj'}, apply obj = .ok obj' → obj'.getRef.objType = obj.getRef.objType

inductive Operation
  | Create (railjson : InfraObject)
  | Update (objId : String) (objType : ObjectType) (railjsonPatch : Patch)
  | Delete (objId : String) (objType : ObjectType)

variable (db : Database)

namespace Database

def find (r : ObjectRef) : Option InfraObject := db.rows.find? (·.getRef = r)

/-- `INSERT`, refused when the id is taken. -/
def insert (obj : InfraObject) : Answer Database :=
  if h : obj.getRef ∈ db.rows.map InfraObject.getRef then .err .Database
  else .ok { db with
    rows := db.rows ++ [obj]
    unique := by
      rw [List.map_append, List.nodup_append]
      refine ⟨db.unique, List.nodup_singleton _, fun r hr r' hr' => ?_⟩
      rw [List.map_singleton, List.mem_singleton] at hr'
      exact hr' ▸ fun heq => h (heq ▸ hr) }

/-- `UPDATE` of the row of an object. -/
def replace (obj : InfraObject) : Database :=
  { db with
    rows := db.rows.map fun row => if row.getRef = obj.getRef then obj else row
    unique := by
      have hrefs : ∀ row : InfraObject,
          (if row.getRef = obj.getRef then obj else row).getRef = row.getRef := by
        intro row
        split
        · next heq => exact heq.symm
        · rfl
      rw [List.map_map, show InfraObject.getRef ∘ _ = InfraObject.getRef from funext hrefs]
      exact db.unique }

/-- `DELETE` of the row of an object. -/
def erase (r : ObjectRef) : Database :=
  { db with
    rows := db.rows.filter (·.getRef ≠ r)
    unique := db.unique.sublist (List.filter_sublist.map _) }

end Database

/-! ### Operations on the database -/

def applyCreateOperation (infraObject : InfraObject) (db : Database) : Answer Database :=
  if infraObject.getRef.objId = "" then .err .EmptyId else db.insert infraObject

/-- The patched object, which must keep the id. -/
def patchAndCheck (objId : String) (patch : Patch) (obj : InfraObject) : Answer InfraObject :=
  match patch.apply obj with
  | .error error => .err (.InvalidPatch error)
  | .ok railjson => if railjson.getRef.objId ≠ objId then .err .ModifyId else .ok railjson

variable (infraId : ℤ)

def applyUpdateOperation (objId : String) (objType : ObjectType) (patch : Patch)
    (db : Database) : Answer (Database × InfraObject) :=
  match db.find ⟨objType, objId⟩ with
  | none => .err (.ObjectNotFound objId infraId)
  | some obj => do
      let railjson ← patchAndCheck objId patch obj
      return (db.replace railjson, railjson)

def applyDeleteOperation (objId : String) (objType : ObjectType) (db : Database) :
    Answer Database :=
  match db.find ⟨objType, objId⟩ with
  | none => .err (.ObjectNotFound objId infraId)
  | some _ => .ok (db.erase ⟨objType, objId⟩)

namespace Operation

/-- `fails`: a statement of the operation ends with an error of the database. -/
def apply (fails : Bool) (db : Database) : Operation → Answer (Database × Option InfraObject)
  | .Create railjson => do
      let db ← applyCreateOperation railjson db
      if fails then .err .Database else return (db, some railjson)
  | .Update objId objType patch => do
      let (db, railjson) ← applyUpdateOperation infraId objId objType patch db
      if fails then .err .Database else return (db, some railjson)
  | .Delete objId objType => do
      let db ← applyDeleteOperation infraId objId objType db
      if fails then .err .Database else return (db, none)

/-- The operation for the caches; a creation or an update without an object is unreachable. -/
def cacheOperation : Operation → Option InfraObject → Answer CacheOperation
  | .Create _, some railjson => .ok (.Create railjson.toObjectCache)
  | .Update _ _ _, some railjson => .ok (.Update railjson.toObjectCache)
  | .Delete objId objType, _ => .ok (.Delete ⟨objType, objId⟩)
  | _, none => .panic

end Operation

/-- What the loop over the operations has gathered. -/
structure Edited where
  database : Database
  railjsons : List InfraObject
  cacheOperations : List CacheOperation

/-- The loop over the operations; `fails n` is for the operation `n`. -/
def applyAll (infraId : ℤ) : (fails : ℕ → Bool) → Database → List Operation → Answer Edited
  | _, db, [] => .ok ⟨db, [], []⟩
  | fails, db, operation :: operations => do
      let (db, railjson) ← operation.apply infraId (fails 0) db
      let cacheOperation ← operation.cacheOperation railjson
      let edited ← applyAll infraId (fun n => fails (n + 1)) db operations
      return { edited with
        railjsons := railjson.toList ++ edited.railjsons
        cacheOperations := cacheOperation :: edited.cacheOperations }

/-! ### The cache server -/

/-- The JSON text of a member: the array of the operations of an edit, or one operation. -/
inductive Json
  | array (operations : List CacheOperation)
  | operation (operation : CacheOperation)

/-- A member of a sorted set. Members are never equal, as each has a random number of its own. -/
structure Member where
  key : String
  score : ℤ
  json : Json

abbrev Valkey := List Member

def getPatchKey (appVersion : Option String) : String :=
  let osrdVersion := appVersion.getD ""
  "infra_patches." ++ osrdVersion ++ "." ++ toString infraId

def Valkey.jsonZadd (valkey : Valkey) (key : String) (operations : List CacheOperation)
    (score : ℤ) : Valkey :=
  valkey ++ [⟨key, score, .array operations⟩]

/-! ### Edits -/

/-- Which steps of an edit end with an error. -/
structure Environment where
  operation : ℕ → Bool
  bumpVersion : Bool
  getConnection : Bool
  jsonZadd : Bool
  updateAll : Bool
  bumpGeneratedVersion : Bool
  commit : Bool

/-- What an edit reads and writes: the row is the copy of the caller. -/
structure World where
  database : Database
  infra : InfraRow
  cache : InfraCache
  valkey : Valkey

/-- The steps of an edit after the cache has taken the operations. -/
def publish (env : Environment) (appVersion : Option String) (edited : Edited) (w : World) :
    World × Answer (List InfraObject) :=
  let w := { w with cache := { w.cache with infraVersion := w.infra.version } }
  if env.getConnection then (w, .err .CacheServer)
  else
    -- an error of `json_zadd` is ignored
    let w := if env.jsonZadd then w else { w with
      valkey := w.valkey.jsonZadd (getPatchKey w.infra.id appVersion) edited.cacheOperations
        w.cache.infraVersion }
    if env.updateAll then (w, .panic)
    else
      let infra := { w.infra with generatedVersion := some w.infra.version }
      let w := { w with infra := infra }
      if env.bumpGeneratedVersion || env.commit then (w, .err .Database)
      else ({ w with database := { edited.database with infra := infra } }, .ok edited.railjsons)

/-- The database of `w` is written at the end only, since a transaction that fails is rolled back. -/
def applyEdit (env : Environment) (appVersion : Option String) (operations : List Operation)
    (w : World) : World × Answer (List InfraObject) :=
  if w.infra.locked then (w, .err (.InfraIsLocked w.infra.id))
  else
    match applyAll w.infra.id env.operation w.database operations with
    | .err e => (w, .err e)
    | .panic => (w, .panic)
    | .ok edited =>
        let w := { w with infra := { w.infra with version := w.infra.version + 1 } }
        if env.bumpVersion then (w, .err .Database)
        else
          match w.cache.applyOperations edited.cacheOperations with
          | (cache, .error e) => ({ w with cache := cache }, .err (.CacheOperation e))
          | (cache, .ok ()) => publish env appVersion edited { w with cache := cache }

/-! ### Loading -/

namespace InfraCache

/-- The objects of the rows and the built-in nodes, at version 0; `fails`: a query ends with an error. -/
def load (fails : Bool) : Except EditError InfraCache :=
  if fails then .error .Database
  else
    let objects := fun objType => (db.rows.filter (·.getRef.objType = objType)).map (·.toObjectCache)
    match fromObjects objects with
    | .ok s => .ok s
    | .error e => .error (.CacheOperation e)

end InfraCache

end Osrd.Infra
