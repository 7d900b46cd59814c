import Osrd.Search.Calls

/-! The string literals of a query and the bindings of the SQL written for it. -/

namespace Osrd.Search

open List Except Dsl

variable {α ρ : Type} {value : TypedAst}

/-! ### The literals of a query -/

namespace SearchAst

def isCall : SearchAst → Bool
  | .call _ _ => true
  | _ => false

mutual

/-- The string literals from left to right. -/
def literals : SearchAst → List String
  | .string s => [s]
  | .call _ args => literalsOf args
  | _ => []

def literalsOf : List SearchAst → List String
  | [] => []
  | arg :: args => arg.literals ++ literalsOf args

end

/-- A call whose SQL has the literals of its arguments and no other string. -/
structure KeepsLiterals (function : String) (args : List SearchAst) : Prop where
  /-- What stands below a `not` gets no bindings. -/
  below_not : function = "not" → literalsOf args = []
  /-- Nor does a call among the items of a list. -/
  in_list : function = "list" → ∀ item ∈ args, item.isCall → item.literals = []
  /-- `search` for `null` is `FALSE`, whatever the searched value. -/
  search_null : function = "search" → ∀ searched, args = [searched, .null] → searched.literals = []
  /-- The text of `null` is an empty string that the query does not have. -/
  text_of_null : function = "to_string" → args ≠ [.null]

/-- Every call of the query keeps its literals. -/
inductive Bound : SearchAst → Prop
  | literal {query : SearchAst} : query.isCall = false → Bound query
  | call {function : String} {args : List SearchAst} : KeepsLiterals function args →
      (∀ arg ∈ args, Bound arg) → Bound (.call function args)

end SearchAst

/-! ### Placeholders of a text -/

namespace SqlText

@[simp] theorem placeholders_ofString (s : String) : placeholders (ofString s) = [] := rfl

@[simp] theorem placeholders_append (t t' : SqlText) :
    placeholders (t ++ t') = placeholders t ++ placeholders t' :=
  filterMap_append

@[simp] theorem placeholders_parenthesized (t : SqlText) :
    placeholders (parenthesized t) = placeholders t := by
  simp [parenthesized]

@[simp] theorem placeholders_joinWith (separator : String) : ∀ texts : List SqlText,
    placeholders (joinWith separator texts) = texts.flatMap placeholders
  | [] => rfl
  | [text] => by simp [joinWith]
  | text :: text' :: texts => by
    have ih := placeholders_joinWith separator (text' :: texts)
    rw [joinWith] at ih ⊢
    simp only [intersperse_cons_cons, flatten_cons, placeholders_append,
      placeholders_ofString, nil_append, flatMap_cons] at ih ⊢
    rw [ih]

end SqlText

/-! ### Writing with bindings -/

/-- A writer adds the strings to the bindings it is given, and numbers its placeholders after these. -/
def Writes {τ : Type} (write : List String → Option (τ × List String)) (marks : τ → List ℕ)
    (strings : List String) : Prop :=
  ∀ bindings, ∃ text, write bindings = some (text, bindings ++ strings) ∧
    marks text = range' (bindings.length + 1) strings.length

namespace Writes

variable {τ σ : Type} {write : List String → Option (τ × List String)} {marks : τ → List ℕ}
  {strings strings' : List String}

theorem nothing {text : τ} (hmarks : marks text = []) :
    Writes (fun bindings => some (text, bindings)) marks [] :=
  fun bindings => ⟨text, by simp, hmarks⟩

theorem map (h : Writes write marks strings) {marks' : σ → List ℕ} (f : τ → σ)
    (hmarks : ∀ text, marks' (f text) = marks text) :
    Writes (fun bindings => (write bindings).map fun (text, bindings) => (f text, bindings))
      marks' strings := by
  intro bindings
  obtain ⟨text, hwrite, htext⟩ := h bindings
  exact ⟨f text, by simp [hwrite], (hmarks text).trans htext⟩

/-- One after the other, on the same bindings. -/
theorem cons (h : Writes write marks strings) {writes : List String → Option (List τ × List String)}
    (h' : Writes writes (flatMap marks) strings') :
    Writes (fun bindings => (write bindings).bind fun (text, bindings) =>
        (writes bindings).map fun (texts, bindings) => (text :: texts, bindings))
      (flatMap marks) (strings ++ strings') := by
  intro bindings
  obtain ⟨text, hwrite, htext⟩ := h bindings
  obtain ⟨texts, hwrites, htexts⟩ := h' (bindings ++ strings)
  refine ⟨text :: texts, by simp [hwrite, hwrites], ?_⟩
  rw [flatMap_cons, htext, htexts, length_append, length_append, ← range'_append_1, Nat.add_right_comm]

/-- What `Display` writes gets no bindings, and needs none without strings. -/
theorem display (h : Writes write marks []) :
    Writes (fun bindings => (write []).map fun (text, _) => (text, bindings)) marks [] := by
  intro bindings
  obtain ⟨text, hwrite, htext⟩ := h []
  exact ⟨text, by simp [hwrite], htext⟩

end Writes

/-! ### Writing a query -/

variable {strings : List String} {args : List SearchAst}

section Query

open SqlText

variable {floatText : F64 → String} {ctx : QueryContext}

theorem flatMap_parenthesized (texts : List SqlText) :
    (texts.map parenthesized).flatMap placeholders = texts.flatMap placeholders := by
  simp [flatMap_map]

theorem writes_infixOp {operator : String} {queries : List SqlQuery}
    (h : Writes (toSqls floatText queries) (flatMap placeholders) strings) :
    Writes (toSql floatText (.infixOp operator queries)) placeholders strings := by
  have hmap := h.map (fun texts => joinWith (" " ++ operator ++ " ") (texts.map parenthesized))
    fun texts => (placeholders_joinWith _ _).trans (flatMap_parenthesized texts)
  intro bindings
  simpa only [toSql] using hmap bindings

theorem writes_call {function : String} {args : List SqlQuery}
    (h : Writes (toSqls floatText args) (flatMap placeholders) strings) :
    Writes (toSql floatText (.call function args)) placeholders strings := by
  have hmap : Writes _ placeholders strings := h.map (fun texts => ofString function ++ ofString "(" ++
    joinWith ", " (texts.map parenthesized) ++ ofString ")") fun texts => by
      simp [flatMap_parenthesized]
  intro bindings
  simpa only [toSql] using hmap bindings

theorem writes_cast {operand : SqlQuery} {ty : String}
    (h : Writes (toSql floatText operand) placeholders strings) :
    Writes (toSql floatText (.cast operand ty)) placeholders strings := by
  have hmap : Writes _ placeholders strings :=
    h.map (fun text => parenthesized text ++ ofString "::" ++ ofString ty) fun text => by simp
  intro bindings
  simpa only [toSql] using hmap bindings

theorem writes_prefixOp {operator : String} {operand : SqlQuery}
    (h : Writes (toSql floatText operand) placeholders []) :
    Writes (toSql floatText (.prefixOp operator operand)) placeholders [] := by
  have hmap : Writes _ placeholders [] :=
    h.map (fun text => ofString operator ++ ofString " (" ++ text ++ ofString ")")
      fun text => by simp
  intro bindings
  simpa [toSql] using hmap.display bindings

theorem writes_sequence {items : List TypedAst}
    (h : Writes (valuesToSql floatText items) (flatMap placeholders) strings) :
    Writes (toSql floatText (.value (.sequence items AstType.string))) placeholders strings := by
  have hmap : Writes _ placeholders strings := h.map (fun texts => ofString "ARRAY[" ++
    joinWith "," (texts.map parenthesized) ++ ofString "]::" ++ ofString "TEXT" ++ ofString "[]")
      fun texts => by simp [flatMap_parenthesized]
  intro bindings
  simpa only [toSql, valueToSql, sqlType, Option.bind_some] using hmap bindings

theorem writes_toSqls_nil : Writes (toSqls floatText []) (flatMap placeholders) [] :=
  Writes.nothing rfl

theorem writes_toSqls_cons {query : SqlQuery} {queries : List SqlQuery} {strings strings' : List String}
    (h : Writes (toSql floatText query) placeholders strings)
    (h' : Writes (toSqls floatText queries) (flatMap placeholders) strings') :
    Writes (toSqls floatText (query :: queries)) (flatMap placeholders) (strings ++ strings') := by
  intro bindings
  simpa only [toSqls] using h.cons h' bindings

/-- What evaluation makes of a query. -/
structure Evaluated (floatText : F64 → String) (query : SearchAst) (value : TypedAst) : Prop where
  writes : Writes (toSql floatText value.toQuery) placeholders query.literals
  null_iff : value = .null ↔ query = .null
  literal : query.isCall = false → value.toQuery = .value value
  call : query.isCall = true → (∃ expr spec, value = .sql expr spec) ∨
    (TypeSpec.type .string).isSupertypeSpec value.typeSpec = some false

theorem writes_args {values : List TypedAst} (h : List.Forall₂ (Evaluated floatText) args values) :
    Writes (toSqls floatText (values.map TypedAst.toQuery)) (flatMap placeholders)
      (SearchAst.literalsOf args) := by
  induction h with
  | nil => exact writes_toSqls_nil
  | cons h _ ih => exact writes_toSqls_cons h.writes ih

theorem writes_items {items : List SearchAst} {values : List TypedAst}
    (h : List.Forall₂ (Evaluated floatText) items values)
    (hcalls : ∀ item ∈ items, item.isCall → item.literals = []) (hstring : ∀ value ∈ values,
      (TypeSpec.type .string).isSupertypeSpec value.typeSpec = some true) :
    Writes (valuesToSql floatText values) (flatMap placeholders) (SearchAst.literalsOf items) := by
  induction h with
  | nil => exact Writes.nothing rfl
  | @cons item value items values h _ ih =>
    rw [forall_mem_cons] at hcalls hstring
    have hitem : Writes (valueToSql floatText value) placeholders item.literals := by
      have hwrites := h.writes
      cases hcall : item.isCall with
      | false =>
        rw [h.literal hcall] at hwrites
        intro bindings
        simpa only [toSql] using hwrites bindings
      | true =>
        rcases h.call hcall with ⟨expr, spec, rfl⟩ | hnot
        · rw [hcalls.1 hcall] at hwrites ⊢
          intro bindings
          simpa only [valueToSql, TypedAst.toQuery] using hwrites.display bindings
        · exact absurd (hstring.1.symm.trans hnot) (by simp)
    intro bindings
    simpa only [valuesToSql, SearchAst.literalsOf] using
      hitem.cons (ih hcalls.2 hstring.2) bindings

end Query

/-! ### Every function passes its literals on -/

section Calls

open SqlText SearchAst

section Functions

variable {floatText : F64 → String}

/-- A function that is called with accepted arguments whose literals it keeps gives what the query says. -/
def PassesOn (floatText : F64 → String) (function : String × QueryFunction) : Prop :=
  ∀ {args : List SearchAst} {values : List TypedAst} {value : TypedAst},
    List.Forall₂ (Evaluated floatText) args values → KeepsLiterals function.1 args →
    function.2.signature.typecheckArgs (values.map TypedAst.typeSpec) = .ok () →
    function.2.run values = .ok value → Evaluated floatText (.call function.1 args) value

variable {name : String}

theorem evaluated_sql {expr : SqlQuery} {spec : TypeSpec}
    (h : Writes (toSql floatText expr) placeholders (literalsOf args)) :
    Evaluated floatText (.call name args) (.sql expr spec) where
  writes := h
  null_iff := ⟨fun h => (nomatch h), fun h => (nomatch h)⟩
  literal := fun h => (nomatch h)
  call := fun _ => .inl ⟨expr, spec, rfl⟩

theorem nullableErsatz_intoArg {T : Dsl α ρ} {o : Option TypedAst}
    (h : (nullableErsatz T).intoArg value = .ok o) : TypedAst.ofOption id o = value :=
  nullable_intoArg (fun _ ha => ersatz_intoArg ha) h

theorem nullableString_intoArg {o : Option String}
    (h : Dsl.string.nullable.intoArg value = .ok o) : TypedAst.ofOption .string o = value :=
  nullable_intoArg (fun _ ha => string_intoArg ha) h

theorem notFunction_passesOn : PassesOn floatText notFunction := by
  intro args values value hargs hkeeps hcheck hrun
  obtain ⟨v1, a, r, rfl, ha, hr, hvalue⟩ := function1_inv (by simp [nullable]) hcheck hrun
  cases hr
  cases hvalue
  rw [nullableErsatz_intoArg ha]
  cases hargs with
  | @cons arg _ _ _ harg hnil =>
    cases hnil
    have hnone := hkeeps.below_not rfl
    have hwrites := harg.writes
    rw [(append_eq_nil_iff.mp hnone).1] at hwrites
    exact evaluated_sql (hnone ▸ writes_prefixOp hwrites)

theorem joinFunction_passesOn {name operator : String} :
    PassesOn floatText (joinFunction name operator) := by
  intro args values value hargs _ _ hrun
  cases hrun
  exact evaluated_sql (writes_infixOp (writes_args hargs))

/-- Two arguments around an operator. -/
theorem infixQuery_evaluated {name operator : String} {v1 v2 : TypedAst} {spec : TypeSpec}
    (hargs : List.Forall₂ (Evaluated floatText) args [v1, v2]) :
    Evaluated floatText (.call name args) (.sql (infixQuery operator v1 v2) spec) :=
  evaluated_sql (writes_infixOp (writes_args hargs))

theorem eqFunction_passesOn (T : Dsl α ρ) : PassesOn floatText (eqFunction T) := by
  intro args values value hargs _ hcheck hrun
  obtain ⟨v1, v2, a1, a2, r, rfl, ha1, ha2, hr, hvalue⟩ :=
    function2_inv (by simp [nullable]) (by simp [nullable]) hcheck hrun
  cases hr
  cases hvalue
  rw [nullableErsatz_intoArg ha1, nullableErsatz_intoArg ha2]
  exact infixQuery_evaluated hargs

theorem likeFunction_passesOn {name operator : String} (R : Dsl α ρ) :
    PassesOn floatText (likeFunction name operator R) := by
  intro args values value hargs _ hcheck hrun
  obtain ⟨v1, v2, a1, a2, r, rfl, ha1, ha2, hr, hvalue⟩ :=
    function2_inv (by simp [ersatz, Dsl.string, ofValue]) (by simp [nullable]) hcheck hrun
  cases hr
  cases hvalue
  rw [ersatz_intoArg ha1, nullableString_intoArg ha2]
  exact infixQuery_evaluated hargs

theorem containsFunction_passesOn : PassesOn floatText containsFunction := by
  intro args values value hargs _ hcheck hrun
  obtain ⟨v1, v2, a1, a2, r, rfl, ha1, ha2, hr, hvalue⟩ :=
    function2_inv (by simp [ersatz, array]) (by simp [ersatz, array]) hcheck hrun
  cases hr
  cases hvalue
  rw [ersatz_intoArg ha1, ersatz_intoArg ha2]
  exact infixQuery_evaluated hargs

theorem searchFunction_passesOn : PassesOn floatText searchFunction := by
  intro args values value hargs hkeeps hcheck hrun
  obtain ⟨v1, v2, a1, a2, r, rfl, ha1, ha2, hr, hvalue⟩ :=
    function2_inv (by simp [ersatz, Dsl.string, ofValue]) (by simp [nullable]) hcheck hrun
  cases hr
  obtain rfl := ersatz_intoArg ha1
  obtain rfl := nullableString_intoArg ha2
  cases hargs with
  | @cons arg1 _ _ _ h1 hrest =>
  cases hrest with
  | @cons arg2 _ _ _ h2 hnil =>
  cases hnil
  cases a2 with
  | none =>
    cases hvalue
    obtain rfl := h2.null_iff.mp rfl
    refine ⟨?_, ⟨fun h => (nomatch h), fun h => (nomatch h)⟩, fun h => (nomatch h), fun _ => .inr rfl⟩
    have hnone : (SearchAst.call "search" [arg1, .null]).literals = [] := by
      simp [literals, literalsOf, hkeeps.search_null rfl arg1 rfl]
    exact hnone ▸ Writes.nothing rfl
  | some pattern =>
    cases hvalue
    refine evaluated_sql (writes_infixOp (writes_toSqls_cons h1.writes ?_))
    refine writes_toSqls_cons (writes_call ?_) writes_toSqls_nil
    have hpattern := writes_toSqls_cons h2.writes writes_toSqls_nil
    rwa [append_nil] at hpattern

theorem toStringFunction_passesOn (T : Dsl α ρ) :
    PassesOn floatText (toStringFunction T) := by
  intro args values value hargs hkeeps hcheck hrun
  obtain ⟨v1, a, r, rfl, ha, hr, hvalue⟩ := function1_inv (by simp [nullable]) hcheck hrun
  cases hr
  cases hvalue
  cases hargs with
  | @cons arg _ _ _ harg hnil =>
  cases hnil
  cases a with
  | none =>
    obtain rfl := harg.null_iff.mp (nullableErsatz_intoArg ha).symm
    exact absurd rfl (hkeeps.text_of_null rfl)
  | some w =>
    obtain rfl : w = v1 := nullableErsatz_intoArg ha
    have hone : literalsOf [arg] = arg.literals := append_nil _
    exact evaluated_sql (writes_cast (hone ▸ harg.writes))

theorem listFunction_passesOn : PassesOn floatText listFunction := by
  intro args values value hargs hkeeps hcheck hrun
  cases hrun
  refine ⟨?_, ⟨fun h => (nomatch h), fun h => (nomatch h)⟩, fun h => (nomatch h), fun _ => .inr rfl⟩
  have hstring := typecheckVariadic_forall hcheck
  rw [forall_mem_map] at hstring
  exact writes_sequence (writes_items hargs (hkeeps.in_list rfl) hstring)

theorem processingFunctions_passOn {table : Option String} {columns : String → Option TypeSpec} :
    ∀ function ∈ (createProcessingContext table columns).functions, PassesOn floatText function := by
  simp only [createProcessingContext, forall_mem_cons]
  exact ⟨notFunction_passesOn, joinFunction_passesOn, joinFunction_passesOn, eqFunction_passesOn _,
    eqFunction_passesOn _, eqFunction_passesOn _, eqFunction_passesOn _, eqFunction_passesOn _,
    likeFunction_passesOn _, likeFunction_passesOn _, searchFunction_passesOn, likeFunction_passesOn _,
    toStringFunction_passesOn _, toStringFunction_passesOn _, toStringFunction_passesOn _,
    listFunction_passesOn, containsFunction_passesOn, by simp⟩

end Functions

end Calls

/-! ### Whole queries -/

section Evaluation

open SqlText Partial

variable {floatText : F64 → String} {table : Option String} {columns : String → Option TypeSpec}

theorem evaluated_literal {query : SearchAst} (hcall : query.isCall = false)
    (hquery : value.toQuery = .value value) (hnull : value = .null ↔ query = .null)
    (hwrites : Writes (valueToSql floatText value) placeholders query.literals) :
    Evaluated floatText query value where
  writes := by
    rw [hquery]
    intro bindings
    simpa only [toSql] using hwrites bindings
  null_iff := hnull
  literal := fun _ => hquery
  call := fun h => nomatch h.symm.trans hcall

mutual

theorem evaluateAst_evaluated : ∀ {query : SearchAst} {value : TypedAst}, query.Bound →
    (createProcessingContext table columns).evaluateAst query = .ok value → Evaluated floatText query value
  | .null, _, _, h => by
    cases h
    exact evaluated_literal rfl rfl (by simp) (Writes.nothing rfl)
  | .boolean b, _, _, h => by
    cases h
    refine evaluated_literal rfl rfl (by simp) ?_
    cases b <;> exact Writes.nothing rfl
  | .integer n, _, _, h => by
    cases h
    exact evaluated_literal rfl rfl (by simp) (Writes.nothing rfl)
  | .float n, _, _, h => by
    cases h
    exact evaluated_literal rfl rfl (by simp) (Writes.nothing rfl)
  | .string s, _, _, h => by
    cases h
    refine evaluated_literal rfl rfl (by simp) fun bindings => ?_
    exact ⟨[.placeholder (bindings.length + 1)], by simp [valueToSql, SearchAst.literals], rfl⟩
  | .column name, _, _, h => by
    rw [QueryContext.evaluateAst] at h
    split at h
    · cases h
      refine evaluated_literal rfl rfl (by simp) ?_
      cases table <;> exact Writes.nothing rfl
    · cases h
  | .call name args, value, hbound, h => by
    cases hbound with
    | literal hnot => exact nomatch hnot
    | call hkeeps hargs =>
    obtain ⟨values, hvalues, h⟩ := bind_eq_ok.mp h
    obtain ⟨function, hfind, hrun⟩ := bind_eq_ok.mp h
    obtain ⟨hmem, hcheck⟩ := findFunction_spec hfind
    exact processingFunctions_passOn _ hmem (evaluateAsts_evaluated hargs hvalues) hkeeps hcheck hrun

theorem evaluateAsts_evaluated : ∀ {queries : List SearchAst} {values : List TypedAst},
    (∀ query ∈ queries, query.Bound) →
    (createProcessingContext table columns).evaluateAsts queries = .ok values →
    List.Forall₂ (Evaluated floatText) queries values
  | [], _, _, h => by
    cases h
    exact .nil
  | query :: queries, _, hbound, h => by
    rw [forall_mem_cons] at hbound
    obtain ⟨value, hvalue, h⟩ := bind_eq_ok.mp h
    obtain ⟨values, hvalues, h⟩ := bind_eq_ok.mp h
    cases h
    exact .cons (evaluateAst_evaluated hbound.1 hvalue) (evaluateAsts_evaluated hbound.2 hvalues)

end

end Evaluation

end Osrd.Search
