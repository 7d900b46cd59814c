import Mathlib.Data.List.Basic

/-! JSON documents and patches (RFC 6902).

    A patch is a list of operations applied in turn. An operation changes the value at a path
    (`modify`), and every step of a path is one access to a container (`child`, `setChild`), so that the
    laws of paths follow from three laws of a step. Operations whose paths share a prefix act on the
    value below that prefix (`applyAll_under`). -/

namespace JsonPatch

open Option

inductive Value (N : Type)
  | null
  | bool (b : Bool)
  | num (n : N)
  | str (s : String)
  | array (items : List (Value N))
  | object (fields : List (String × Value N))

/-- A token of a path; `last` is the place after the last item of an array. -/
inductive Token
  | key (name : String)
  | index (i : ℕ)
  | last

/-- An operation; `remove` and `add` name the container and the place in it. -/
inductive Operation (N : Type)
  | replace (path : List Token) (value : Value N)
  | remove (path : List Token) (token : Token)
  | add (path : List Token) (token : Token) (value : Value N)

variable {N : Type}

/-! ### Fields of an object -/

def field (name : String) : List (String × Value N) → Option (Value N)
  | [] => none
  | (name', v) :: fields => if name' = name then some v else field name fields

def setField (name : String) (v : Value N) : List (String × Value N) → List (String × Value N)
  | [] => []
  | (name', v') :: fields =>
      if name' = name then (name', v) :: fields else (name', v') :: setField name v fields

variable {v v' : Value N} {name : String}

theorem field_setField : ∀ {fields : List (String × Value N)},
    field name fields = some v → field name (setField name v' fields) = some v'
  | (name', _) :: fields, h => by
    rw [setField]
    split
    · next heq => exact if_pos heq
    · next hne =>
      rw [field, if_neg hne] at h ⊢
      exact field_setField h

theorem field_setField_of_ne {name name' : String} {v : Value N} (hne : name' ≠ name) :
    ∀ fields : List (String × Value N), field name (setField name' v fields) = field name fields
  | [] => rfl
  | (key, _) :: fields => by
    rw [setField]
    split
    · next heq =>
      rw [field, field, if_neg (heq ▸ hne), if_neg (heq ▸ hne)]
    · rw [field, field, field_setField_of_ne hne fields]

theorem setField_self {v : Value N} : ∀ {fields : List (String × Value N)},
    field name fields = some v → setField name v fields = fields
  | (name', _) :: fields, h => by
    rw [setField]
    split
    · next heq =>
      rw [field, if_pos heq] at h
      rw [some.inj h]
    · next hne =>
      rw [field, if_neg hne] at h
      rw [setField_self h]

theorem setField_setField : ∀ fields : List (String × Value N),
    setField name v (setField name v' fields) = setField name v fields
  | [] => rfl
  | (name', _) :: fields => by
    by_cases heq : name' = name
    · simp only [setField, if_pos heq]
    · simp only [setField, if_neg heq, setField_setField fields]

/-! ### Steps -/

def child : Token → Value N → Option (Value N)
  | .key name, .object fields => field name fields
  | .index i, .array items => items[i]?
  | _, _ => none

def setChild (v : Value N) : Token → Value N → Value N
  | .key name, .object fields => .object (setField name v fields)
  | .index i, .array items => .array (items.set i v)
  | _, container => container

@[simp] theorem child_index (i : ℕ) (items : List (Value N)) :
    child (.index i) (.array items) = items[i]? := rfl

@[simp] theorem setChild_index (v : Value N) (i : ℕ) (items : List (Value N)) :
    setChild v (.index i) (.array items) = .array (items.set i v) := rfl

theorem child_setChild {t : Token} {c v v' : Value N} (h : child t c = some v) :
    child t (setChild v' t c) = some v' := by
  cases t <;> cases c <;> simp only [child, reduceCtorEq] at h
  · exact field_setField h
  · exact List.getElem?_set_self (getElem?_eq_some_iff.mp h).1

theorem setChild_self {t : Token} {c v : Value N} (h : child t c = some v) : setChild v t c = c := by
  cases t <;> cases c <;> simp only [child, reduceCtorEq] at h
  · exact congrArg Value.object (setField_self h)
  · obtain ⟨hi, rfl⟩ := getElem?_eq_some_iff.mp h
    exact congrArg Value.array (List.set_getElem_self hi)

theorem setChild_setChild (v v' : Value N) (t : Token) (c : Value N) :
    setChild v t (setChild v' t c) = setChild v t c := by
  cases t <;> cases c <;> simp only [setChild, setField_setField, List.set_set]

/-! ### Paths -/

def get : List Token → Value N → Option (Value N)
  | [], v => some v
  | t :: path, v => (child t v).bind (get path)

/-- Changes the value at a path; fails when the path leads nowhere or the change fails. -/
def modify (f : Value N → Option (Value N)) : List Token → Value N → Option (Value N)
  | [], v => f v
  | t :: path, v => do
      let c ← child t v
      let c ← modify f path c
      return setChild c t v

theorem modify_append (f : Value N → Option (Value N)) : ∀ (path path' : List Token) (v : Value N),
    modify f (path ++ path') v = modify (modify f path') path v
  | [], _, _ => rfl
  | t :: path, path', v => by
    rw [List.cons_append, modify, modify]
    cases child t v with
    | none => rfl
    | some c => simp only [bind_eq_bind, bind_some, modify_append f path path' c]

theorem modify_some : ∀ {path : List Token} {v v' : Value N}, get path v = some v' →
    modify some path v = some v
  | [], _, _, _ => rfl
  | t :: path, v, v', h => by
    obtain ⟨c, hc, hget⟩ := bind_eq_some_iff.mp h
    rw [modify, hc]
    simp [modify_some hget, setChild_self hc]

/-- The change of a value that is found, followed to the end. -/
theorem modify_bind {f g : Value N → Option (Value N)} : ∀ {path : List Token} {v : Value N},
    (modify f path v).bind (modify g path) = modify (fun v => (f v).bind g) path v
  | [], _ => rfl
  | t :: path, v => by
    rw [modify, modify]
    cases hc : child t v with
    | none => rfl
    | some c =>
      simp only [bind_eq_bind, bind_some]
      rw [← @modify_bind f g path c]
      cases modify f path c with
      | none => rfl
      | some c' =>
        simp only [bind_some, pure_def]
        rw [modify, child_setChild hc]
        simp only [bind_eq_bind, bind_some, setChild_setChild, pure_def]

theorem modify_congr {f g : Value N → Option (Value N)} : ∀ {path : List Token} {v v' : Value N},
    get path v = some v' → f v' = g v' → modify f path v = modify g path v
  | [], _, _, h, heq => by
    cases h
    exact heq
  | t :: path, v, v', h, heq => by
    obtain ⟨c, hc, hget⟩ := bind_eq_some_iff.mp h
    rw [modify, modify, hc]
    simp only [bind_eq_bind, bind_some, modify_congr hget heq]

/-- A value can be put at a path that leads somewhere, and is found there. -/
theorem modify_const (new : Value N) : ∀ {path : List Token} {v v' : Value N},
    get path v = some v' → ∃ after, modify (fun _ => some new) path v = some after ∧
      get path after = some new
  | [], _, _, _ => ⟨new, rfl, rfl⟩
  | t :: path, v, v', h => by
    obtain ⟨c, hc, hget⟩ := bind_eq_some_iff.mp h
    obtain ⟨after, hafter, hnew⟩ := modify_const new hget
    refine ⟨setChild after t v, ?_, ?_⟩
    · rw [modify, hc]
      simp [hafter]
    · rw [get, child_setChild hc]
      exact hnew

variable {path : List Token}

theorem modify_none {v : Value N} : modify (fun _ => none) path v = none := by
  induction path generalizing v with
  | nil => rfl
  | cons t path ih =>
    rw [modify]
    cases child t v with
    | none => rfl
    | some c => simp [ih]

/-- Putting the result of a change at a path that leads somewhere loses nothing of it. -/
theorem modify_const_inj {new new' : Option (Value N)} (h : get path v = some v') :
    modify (fun _ => new) path v = modify (fun _ => new') path v ↔ new = new' := by
  refine ⟨fun heq => ?_, fun heq => heq ▸ rfl⟩
  cases new with
  | none =>
    cases new' with
    | none => rfl
    | some new' =>
      obtain ⟨after, hafter, -⟩ := modify_const new' h
      exact nomatch modify_none.symm.trans (heq.trans hafter)
  | some new =>
    obtain ⟨after, hafter, hnew⟩ := modify_const new h
    cases new' with
    | none => exact nomatch (hafter.symm.trans heq).trans modify_none
    | some new' =>
      obtain ⟨after', hafter', hnew'⟩ := modify_const new' h
      cases hafter.symm.trans (heq.trans hafter')
      rw [← hnew, ← hnew']

/-! ### Operations -/

def removeChild : Token → Value N → Option (Value N)
  | .key name, .object fields =>
      if (field name fields).isSome then some (.object (fields.filter (·.1 ≠ name))) else none
  | .index i, .array items => if i < items.length then some (.array (items.eraseIdx i)) else none
  | _, _ => none

def addChild (v : Value N) : Token → Value N → Option (Value N)
  | .key name, .object fields =>
      if (field name fields).isSome then some (.object (setField name v fields))
      else some (.object (fields ++ [(name, v)]))
  | .index i, .array items =>
      if i ≤ items.length then some (.array (items.insertIdx i v)) else none
  | .last, .array items => some (.array (items ++ [v]))
  | _, _ => none

namespace Operation

def apply (v : Value N) : Operation N → Option (Value N)
  | .replace path value => modify (fun _ => some value) path v
  | .remove path token => modify (removeChild token) path v
  | .add path token value => modify (addChild value token) path v

/-- The operation on the value that is found at the path. -/
def under (path : List Token) : Operation N → Operation N
  | .replace path' value => .replace (path ++ path') value
  | .remove path' token => .remove (path ++ path') token
  | .add path' token value => .add (path ++ path') token value

theorem apply_under (path : List Token) (op : Operation N) (v : Value N) :
    (op.under path).apply v = modify (fun v => op.apply v) path v := by
  cases op <;> exact modify_append _ _ _ _

end Operation

def applyAll (operations : List (Operation N)) (v : Value N) : Option (Value N) :=
  operations.foldlM Operation.apply v

theorem applyAll_append (ops ops' : List (Operation N)) (v : Value N) :
    applyAll (ops ++ ops') v = (applyAll ops v).bind (applyAll ops') :=
  List.foldlM_append ..

/-- Operations below a path act on the value that is found there. -/
theorem applyAll_under {ops : List (Operation N)} (h : get path v = some v') :
    applyAll (ops.map (Operation.under path)) v = modify (fun _ => applyAll ops v') path v := by
  have hall : ∀ {ops : List (Operation N)} {v v' : Value N}, get path v = some v' →
      applyAll (ops.map (Operation.under path)) v = modify (applyAll ops) path v := by
    intro ops
    induction ops with
    | nil => exact fun h => (modify_some h).symm
    | cons op ops ih =>
      intro v v' h
      have hstep : applyAll (op :: ops) = fun v : Value N => (op.apply v).bind (applyAll ops) := rfl
      rw [hstep, ← modify_bind, ← Operation.apply_under]
      change ((op.under path).apply v).bind (applyAll (ops.map (Operation.under path))) = _
      cases hop : (op.under path).apply v with
      | none => rfl
      | some after =>
        -- the path still leads somewhere after the operation
        have hat := modify_congr (f := fun v => op.apply v) (g := fun _ => op.apply v') h rfl
        rw [Operation.apply_under, hat] at hop
        cases hnew : op.apply v' with
        | none =>
          rw [hnew] at hop
          exact nomatch modify_none.symm.trans hop
        | some new =>
          rw [hnew] at hop
          obtain ⟨after', hafter, hget⟩ := modify_const new h
          cases hop.symm.trans hafter
          exact ih hget
  rw [hall h]
  exact modify_congr h rfl

end JsonPatch
