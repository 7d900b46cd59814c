import Osrd.Search.Calls
import Mathlib.Data.List.Forall2

/-! Evaluation of queries that typecheck.

    The types that evaluation finds are those of the typecheck, so that every call finds the function that
    the typecheck found. What is left is how a function takes its arguments. A plain argument may not be a
    column or an SQL expression, which the source documents. A nullable one is either the value null or a
    value of the type without null: a column or an expression whose own type has null in it is neither,
    although the signature accepts it (`Fault.nullable`). -/

namespace Osrd.Search

open Partial TypeSpec Dsl List QueryContext
open Except (ok.inj)

/-! ### Faulty calls -/

namespace TypeSpec

/-- Null is one of the alternatives. -/
def hasNull : TypeSpec → Bool
  | .type t => t = .null
  | .union left right => left.hasNull || right.hasNull
  | _ => false

/-- Null is the only alternative. -/
def onlyNull : TypeSpec → Bool
  | .type t => t = .null
  | .union left right => left.onlyNull && right.onlyNull
  | _ => false

end TypeSpec

namespace SearchAst

def isNull : SearchAst → Bool
  | .null => true
  | _ => false

/-- Neither a column nor a call. -/
def isLiteral : SearchAst → Bool
  | .column _ => false
  | .call _ _ => false
  | _ => true

mutual

/-- The calls of a query in the order of their evaluation. -/
def calls : SearchAst → List (String × List SearchAst)
  | .call name args => callsOfAll args ++ [(name, args)]
  | _ => []

def callsOfAll : List SearchAst → List (String × List SearchAst)
  | [] => []
  | arg :: args => calls arg ++ callsOfAll args

end

end SearchAst

inductive Fault
  | plain
  | nullable
deriving DecidableEq

/-- The functions whose second argument is a plain text. -/
def textFunctions : List String := ["like", "ilike", "search", "=i"]

/-- The functions whose arguments are nullable and may be columns or expressions. -/
def nullableFunctions : List String := ["not", "=", "to_string"]

/-- What is wrong with a call, whose arguments have these types: a column or a call as a plain text, or an
    argument that may be null without being the value null. Two arguments that can only be null are
    compared. -/
def faultOf (name : String) (args : List SearchAst) (types : List TypeSpec) : Option Fault :=
  if name ∈ textFunctions then
    if (args.drop 1).any fun arg => !arg.isLiteral then some .plain else none
  else if name ∈ nullableFunctions ∧ ((args.zip types).any fun p => !p.1.isNull && p.2.hasNull) ∧
      ¬ (name = "=" ∧ types.all TypeSpec.onlyNull) then some .nullable
  else none

namespace QueryContext

variable (ctx : QueryContext)

def callFault (call : String × List SearchAst) : Option Fault :=
  match ctx.typecheckSearchQueries call.2 with
  | .ok types => faultOf call.1 call.2 types
  | .error _ => none

/-- The fault that evaluation meets first. -/
def firstFault (query : SearchAst) : Option Fault := query.calls.findSome? ctx.callFault

/-- A plain argument is a column or an expression. -/
def ErsatzArgument (calls : List (String × List SearchAst)) (error : Failure ProcessingError) : Prop :=
  ∃ name text pattern value, (name, [text, pattern]) ∈ calls ∧ name ∈ textFunctions ∧
    ctx.evaluateAst pattern = .ok value ∧ value.isErsatz ∧
    error = .err (.unexpectedErsatz value AstType.string)

/-- Evaluation answers, or finds a column or an expression for a plain argument. -/
def Safe (query : SearchAst) : Prop :=
  (∃ value, ctx.evaluateAst query = .ok value) ∨
    ∃ error, ctx.evaluateAst query = .error error ∧ ctx.ErsatzArgument query.calls error

/-! ### Outcomes -/

/-- What comes of the evaluation of some calls, by their first fault. -/
def Outcome {α : Type} (calls : List (String × List SearchAst)) (good : α → Prop) :
    Option Fault → Processed α → Prop
  | none, r => ∃ a, r = .ok a ∧ good a
  | some .plain, r => ∃ error, r = .error error ∧ ctx.ErsatzArgument calls error
  | some .nullable, r => ∃ value expected,
      r = .error (.err (.runtimeTypeCheckFail value expected value.typeSpec))

variable {ctx}

theorem Outcome.mono {α : Type} {calls calls' : List (String × List SearchAst)} {good : α → Prop}
    (hsub : calls ⊆ calls') : ∀ {fault : Option Fault} {r : Processed α},
    ctx.Outcome calls good fault r → ctx.Outcome calls' good fault r
  | none, _, h => h
  | some .plain, _, ⟨error, hr, name, text, pattern, value, hcall, h⟩ =>
    ⟨error, hr, name, text, pattern, value, hsub hcall, h⟩
  | some .nullable, _, h => h

/-- One evaluation after another. -/
theorem Outcome.bind {α β : Type} {calls : List (String × List SearchAst)} {good : α → Prop}
    {good' : β → Prop} {k : α → Processed β} {fault' : Option Fault} :
    ∀ {fault : Option Fault} {r : Processed α}, ctx.Outcome calls good fault r →
    (∀ a, r = .ok a → good a → ctx.Outcome calls good' fault' (k a)) →
    ctx.Outcome calls good' (fault.or fault') (r >>= k)
  | none, _, ⟨a, hr, ha⟩, h => by
    subst hr
    exact h a rfl ha
  | some .plain, _, ⟨error, hr, herror⟩, _ => by
    subst hr
    exact ⟨error, rfl, herror⟩
  | some .nullable, _, ⟨value, expected, hr⟩, _ => by
    subst hr
    exact ⟨value, expected, rfl⟩

end QueryContext

/-! ### Types without null -/

variable {t : AstType}

theorem isSupertypeSpec_of_nullable : ∀ {spec : TypeSpec},
    (union t AstType.null).isSupertypeSpec spec = some true →
    (type t).isSupertypeSpec spec = some (decide (t = .null) || !spec.hasNull)
  | .any, h => by simp [isSupertypeSpec] at h
  | .variadic _, h => by simp [isSupertypeSpec] at h
  | .function _ _, h => by simp [isSupertypeSpec] at h
  | .sequence _, h => by simp [isSupertypeSpec] at h
  | .type t', h => by
    cases t <;> cases t' <;> first | rfl | cases h
  | .union left right, h => by
    rw [isSupertypeSpec] at h ⊢
    · split at h
      · next hleft =>
        rw [isSupertypeSpec_of_nullable hleft]
        have hright := isSupertypeSpec_of_nullable h
        cases hnull : decide (t = .null) || !left.hasNull with
        | true =>
          simp only [hasNull]
          grind
        | false =>
          simp only [hasNull]
          grind
      · next hne => exact absurd h hne
    · simp
    · simp

theorem isSupertypeSpec_null : ∀ {spec : TypeSpec},
    (union AstType.null AstType.null).isSupertypeSpec spec = some true ↔ spec.onlyNull = true
  | .any => by simp [isSupertypeSpec, onlyNull]
  | .variadic _ => by simp [isSupertypeSpec, onlyNull]
  | .function _ _ => by simp [isSupertypeSpec, onlyNull]
  | .sequence _ => by simp [isSupertypeSpec, onlyNull]
  | .type t => by
    cases t <;> simp [isSupertypeSpec, isSupertype, onlyNull]
  | .union left right => by
    have hleft := @isSupertypeSpec_null left
    have hright := @isSupertypeSpec_null right
    simp only [isSupertypeSpec, onlyNull]
    grind

/-! ### Arguments -/

/-- What a value keeps of the query it comes from. -/
structure Shape (query : SearchAst) (value : TypedAst) : Prop where
  null_iff : value = .null ↔ query.isNull = true
  literal : query.isLiteral = true → value.isErsatz = false
  compound : query.isLiteral = false → value.isErsatz = true ∨
    (TypeSpec.union AstType.string AstType.null).isSupertypeSpec value.typeSpec ≠ some true

section Arguments

variable {value : TypedAst} {query : SearchAst}

variable {α ρ : Type} {T : Dsl α ρ} (h : T.typecheck = typecheckValue T.typeSpec)

include h in
theorem typecheckErsatz_eq (value : TypedAst) : T.typecheckErsatz value = checkSpec T.typeSpec value := by
  rw [typecheckErsatz, h]
  split
  · rfl
  · next hersatz => rw [typecheckValue.eq_def, if_neg hersatz]

include h in
theorem ersatz_intoArg_eq
    (value : TypedAst) : T.ersatz.intoArg value = (do checkSpec T.typeSpec value; return value) := by
  rw [← typecheckErsatz_eq h]
  rfl

include h in
/-- Columns and expressions are accepted where their type is. -/
theorem ersatz_intoArg_of_isSupertypeSpec (hspec : T.typeSpec.isSupertypeSpec value.typeSpec = some true) :
    T.ersatz.intoArg value = .ok value := by
  rw [ersatz_intoArg_eq h, checkSpec, hspec]
  rfl

/-- A nullable argument that may be a column or an expression. -/
theorem nullableErsatz_intoArg_eq {α : Type} {unwrap : TypedAst → Option α}
    {wrap : α → TypedAst} (h : (union t AstType.null).isSupertypeSpec value.typeSpec = some true)
    (hshape : Shape query value) : (nullableErsatz (ofValue t unwrap wrap)).intoArg value =
      if !query.isNull && value.typeSpec.hasNull && decide (t ≠ .null) then
        .error (.err (.runtimeTypeCheckFail value t value.typeSpec))
      else .ok (if query.isNull then none else some value) := by
  cases hnull : query.isNull with
  | true =>
    obtain rfl := hshape.null_iff.mpr hnull
    rfl
  | false =>
    have hne : value ≠ .null := fun heq => Bool.false_ne_true (hnull.symm.trans (hshape.null_iff.mp heq))
    have hcheck : checkSpec t value = if value.typeSpec.hasNull && decide (t ≠ .null) then
        .error (.err (.runtimeTypeCheckFail value t value.typeSpec)) else .ok () := by
      rw [checkSpec, isSupertypeSpec_of_nullable h]
      cases t <;> cases value.typeSpec.hasNull <;> rfl
    have hinto : (nullableErsatz (ofValue t unwrap wrap)).intoArg value =
        (do return some (← (ofValue t unwrap wrap).ersatz.intoArg value)) := by
      cases value with
      | null => exact absurd rfl hne
      | _ => rfl
    have hspec : (ofValue t unwrap wrap).typeSpec = t := rfl
    rw [hinto, ersatz_intoArg_eq rfl, hspec, hcheck, Bool.not_false, Bool.true_and]
    cases value.typeSpec.hasNull && decide (t ≠ .null) <;> rfl

/-- The fault of a nullable argument. -/
def nullableFault (arg : SearchAst) (type : TypeSpec) (t : AstType) : Option Fault :=
  if !arg.isNull && type.hasNull && decide (t ≠ .null) then some .nullable else none

theorem nullableErsatz_outcome {ctx : QueryContext} {calls : List (String × List SearchAst)} {α : Type}
    {unwrap : TypedAst → Option α} {wrap : α → TypedAst}
    (h : (union t AstType.null).isSupertypeSpec value.typeSpec = some true) (hshape : Shape query value) :
    ctx.Outcome calls (fun _ => True) (nullableFault query value.typeSpec t)
      ((nullableErsatz (ofValue t unwrap wrap)).intoArg value) := by
  rw [nullableErsatz_intoArg_eq h hshape, nullableFault]
  split
  · exact ⟨value, t, rfl⟩
  · exact ⟨_, rfl, trivial⟩

/-- A nullable text that may not be a column or an expression. -/
theorem nullableString_intoArg_eq
    (h : (union AstType.string AstType.null).isSupertypeSpec value.typeSpec = some true)
    (hshape : Shape query value) :
    (query.isLiteral = true ∧ ∃ o, Dsl.string.nullable.intoArg value = .ok o) ∨
    (query.isLiteral = false ∧ value.isErsatz = true ∧
      Dsl.string.nullable.intoArg value = .error (.err (.unexpectedErsatz value AstType.string))) := by
  cases hliteral : query.isLiteral with
  | true =>
    have hersatz := hshape.literal hliteral
    refine .inl ⟨rfl, ?_⟩
    cases value with
    | null => exact ⟨none, rfl⟩
    | string s => exact ⟨some s, rfl⟩
    | column _ _ _ => cases hersatz
    | sql _ _ => cases hersatz
    | _ => cases h
  | false =>
    have hersatz := (hshape.compound hliteral).resolve_right (not_not.mpr h)
    refine .inr ⟨rfl, hersatz, ?_⟩
    cases value with
    | column _ _ _ => rfl
    | sql _ _ => rfl
    | _ => cases hersatz

end Arguments

/-! ### Functions -/

/-- What a function makes of arguments that its signature accepts. -/
def Answers (ctx : QueryContext) (function : String × QueryFunction) : Prop :=
  ∀ {args : List SearchAst} {values : List TypedAst},
    List.Forall₂ (fun arg value => ctx.evaluateAst arg = .ok value ∧ Shape arg value) args values →
    function.2.signature.typecheckArgs (values.map TypedAst.typeSpec) = .ok () →
    (function.1 = "=" → (values.map TypedAst.typeSpec).all TypeSpec.onlyNull = true →
      function.2.signature.args = (eqFunction Dsl.null).2.signature.args) →
    ctx.Outcome [(function.1, args)]
      (fun value => value.typeSpec = function.2.signature.result ∧ Shape (.call function.1 args) value)
      (faultOf function.1 args (values.map TypedAst.typeSpec)) (function.2.run values)

variable {name : String}

section Functions

variable {ctx : QueryContext}

theorem shape_literal {query : SearchAst} {value : TypedAst} (hnull : value = .null ↔ query.isNull = true)
    (hliteral : query.isLiteral = true) (hvalue : value.isErsatz = false) : Shape query value where
  null_iff := hnull
  literal := fun _ => hvalue
  compound := by simp [hliteral]

theorem shape_sql (name : String) (args : List SearchAst) (expr : SqlQuery) (spec : TypeSpec) :
    Shape (.call name args) (.sql expr spec) where
  null_iff := by simp [SearchAst.isNull]
  literal := by simp [SearchAst.isLiteral]
  compound := by simp [TypedAst.isErsatz]

variable {α β : Type} {r : α → β → Prop} {l : List α}

theorem forall₂_singleton {b : β} (h : List.Forall₂ r l [b]) : ∃ a, l = [a] ∧ r a b := by
  obtain ⟨a, rest, ha, hnil, rfl⟩ := forall₂_cons_right_iff.mp h
  cases hnil
  exact ⟨a, rfl, ha⟩

theorem forall₂_pair {b1 b2 : β}
    (h : List.Forall₂ r l [b1, b2]) : ∃ a1 a2, l = [a1, a2] ∧ r a1 b1 ∧ r a2 b2 := by
  obtain ⟨a1, rest, h1, hrest, rfl⟩ := forall₂_cons_right_iff.mp h
  obtain ⟨a2, rfl, h2⟩ := forall₂_singleton hrest
  exact ⟨a1, a2, rfl, h1, h2⟩

theorem faultOf_other (hname : name ∉ textFunctions ++ nullableFunctions)
    (args : List SearchAst) (types : List TypeSpec) : faultOf name args types = none := by
  rw [mem_append, not_or] at hname
  rw [faultOf, if_neg hname.1, if_neg fun h => hname.2 h.1]

theorem faultOf_text (hname : name ∈ textFunctions) (text pattern : SearchAst)
    (types : List TypeSpec) : faultOf name [text, pattern] types =
      if pattern.isLiteral then none else some .plain := by
  rw [faultOf, if_pos hname]
  cases h : pattern.isLiteral <;> simp [h]

theorem joinFunction_answers {name operator : String}
    (hname : name ∉ textFunctions ++ nullableFunctions) : Answers ctx (joinFunction name operator) := by
  intro args values _ _ _
  rw [show (joinFunction name operator).1 = name from rfl, faultOf_other hname]
  exact ⟨_, rfl, rfl, shape_sql ..⟩

theorem listFunction_answers : Answers ctx listFunction := by
  intro args values _ _ _
  refine ⟨_, rfl, rfl, by simp [SearchAst.isNull], by simp [SearchAst.isLiteral], fun _ => .inr ?_⟩
  simp [TypedAst.typeSpec, isSupertypeSpec]

theorem containsFunction_answers : Answers ctx containsFunction := by
  intro args values _ hcheck _
  obtain ⟨type1, type2, hvalues, h1, h2⟩ :=
    typecheckArgs_two (by simp [ersatz, array]) (by simp [ersatz, array]) hcheck
  obtain ⟨v1, v2, rfl, rfl, rfl⟩ := map_eq_pair_iff.mp hvalues
  have hrun : containsFunction.2.run [v1, v2] = .ok (.sql (infixQuery "<@" v1 v2) AstType.boolean) := by
    have hv1 := @ersatz_intoArg_of_isSupertypeSpec v1 _ _ Dsl.string.array rfl h1
    have hv2 := @ersatz_intoArg_of_isSupertypeSpec v2 _ _ Dsl.string.array rfl h2
    simp only [containsFunction, function2, hv1, hv2]
    rfl
  rw [hrun]
  exact ⟨_, rfl, rfl, shape_sql ..⟩

/-- The functions of a text and a pattern. -/
theorem textFunction_answers {α : Type} {R : Dsl α SqlQuery}
    {f : TypedAst → Option String → Except String SqlQuery} (hname : name ∈ textFunctions)
    (hf : ∀ text pattern args, ∃ query value, f text pattern = .ok query ∧
      R.fromReturn query = .ok value ∧ value.typeSpec = R.typeSpec ∧ Shape (.call name args) value) :
    Answers ctx (function2 Dsl.string.ersatz Dsl.string.nullable R name f) := by
  intro args values hargs hcheck _
  obtain ⟨type1, type2, hvalues, h1, h2⟩ :=
    typecheckArgs_two (by simp [ersatz, Dsl.string, ofValue]) (by simp [Dsl.nullable]) hcheck
  obtain ⟨v1, v2, rfl, rfl, rfl⟩ := map_eq_pair_iff.mp hvalues
  obtain ⟨text, pattern, rfl, -, hpattern⟩ := forall₂_pair hargs
  have hv1 := @ersatz_intoArg_of_isSupertypeSpec v1 _ _ Dsl.string rfl h1
  rw [show (function2 Dsl.string.ersatz Dsl.string.nullable R name f).1 = name from rfl, faultOf_text hname]
  rcases nullableString_intoArg_eq h2 hpattern.2 with ⟨hliteral, o, ho⟩ | ⟨hliteral, hersatz, herror⟩
  · obtain ⟨query, value, hquery, hvalue, htype, hshape⟩ := hf v1 o [text, pattern]
    rw [hliteral, if_pos rfl]
    refine ⟨value, ?_, htype, hshape⟩
    simp only [function2, hv1, ho]
    change functionResult name (f v1 o) >>= R.fromReturn = .ok value
    rw [hquery]
    exact hvalue
  · rw [hliteral, if_neg Bool.false_ne_true]
    refine ⟨_, ?_, name, text, pattern, v2, mem_singleton.mpr rfl, hname, hpattern.1, hersatz, rfl⟩
    simp only [function2, hv1, herror]
    rfl

theorem likeFunction_answers {α ρ : Type} {name operator : String} (R : Dsl α ρ)
    (hname : name ∈ textFunctions) : Answers ctx (likeFunction name operator R) := by
  refine textFunction_answers hname ?_
  intro text pattern args
  exact ⟨_, _, rfl, rfl, rfl, shape_sql ..⟩

theorem searchFunction_answers : Answers ctx searchFunction := by
  refine textFunction_answers (by decide) ?_
  intro text pattern args
  cases pattern with
  | some pattern => exact ⟨_, _, rfl, rfl, rfl, shape_sql ..⟩
  | none =>
    -- without a pattern the answer is a plain value
    refine ⟨_, _, rfl, rfl, rfl, by simp [SearchAst.isNull], by simp [TypedAst.isErsatz], fun _ => .inr ?_⟩
    simp [TypedAst.typeSpec, isSupertypeSpec, isSupertype]

theorem faultOf_one (hname : name = "not" ∨ name = "to_string")
    (ht : t ≠ .null) (arg : SearchAst) (type : TypeSpec) :
    faultOf name [arg] [type] = nullableFault arg type t := by
  have hany : (([arg].zip [type]).any fun p => !p.1.isNull && p.2.hasNull) =
      (!arg.isNull && type.hasNull) := by simp
  rw [faultOf, nullableFault, hany, decide_eq_true ht, Bool.and_true]
  generalize (!arg.isNull && type.hasNull) = b
  rcases hname with rfl | rfl <;> cases b <;> simp [textFunctions, nullableFunctions]

theorem faultOf_two {type1 type2 : TypeSpec}
    (honly : (type1.onlyNull && type2.onlyNull) = decide (t = .null)) (arg1 arg2 : SearchAst) :
    faultOf "=" [arg1, arg2] [type1, type2] =
      (nullableFault arg1 type1 t).or ((nullableFault arg2 type2 t).or none) := by
  have hany : (([arg1, arg2].zip [type1, type2]).any fun p => !p.1.isNull && p.2.hasNull) =
      ((!arg1.isNull && type1.hasNull) || (!arg2.isNull && type2.hasNull)) := by simp
  have hall : [type1, type2].all onlyNull = decide (t = .null) := by simpa using honly
  rw [faultOf, if_neg (show "=" ∉ textFunctions by decide), nullableFault, nullableFault, hany, hall]
  generalize (!arg1.isNull && type1.hasNull) = b1
  generalize (!arg2.isNull && type2.hasNull) = b2
  cases b1 <;> cases b2 <;> cases t <;> decide

/-- The functions of one nullable argument. -/
theorem nullableFunction_answers {R : Dsl β SqlQuery}
    {unwrap : TypedAst → Option α} {wrap : α → TypedAst} {f : Option TypedAst → Except String SqlQuery}
    (hname : name = "not" ∨ name = "to_string") (ht : t ≠ .null)
    (hf : ∀ o, ∃ expr, functionResult name (f o) >>= R.fromReturn = .ok (.sql expr R.typeSpec)) :
    Answers ctx (function1 (nullableErsatz (ofValue t unwrap wrap)) R name f) := by
  intro args values hargs hcheck _
  obtain ⟨type, hvalues, h⟩ := typecheckArgs_one (by simp [Dsl.nullable]) hcheck
  obtain ⟨v, rfl, rfl⟩ := map_eq_singleton_iff.mp hvalues
  obtain ⟨arg, rfl, harg⟩ := forall₂_singleton hargs
  have hfault : faultOf name [arg] [v.typeSpec] = (nullableFault arg v.typeSpec t).or none := by
    rw [faultOf_one hname ht, Option.or_none]
  refine hfault ▸ (nullableErsatz_outcome h harg.2).bind fun o _ _ => ?_
  obtain ⟨expr, hexpr⟩ := hf o
  exact ⟨_, hexpr, rfl, shape_sql ..⟩

theorem notFunction_answers : Answers ctx notFunction :=
  nullableFunction_answers (.inl rfl) (by decide) fun _ => ⟨_, rfl⟩

theorem toStringFunction_answers {α : Type} (ht : t ≠ .null)
    (unwrap : TypedAst → Option α) (wrap : α → TypedAst) :
    Answers ctx (toStringFunction (ofValue t unwrap wrap)) :=
  nullableFunction_answers (.inr rfl) ht fun _ => ⟨_, rfl⟩

theorem eqFunction_answers {α : Type} (t : AstType) (unwrap : TypedAst → Option α)
    (wrap : α → TypedAst) : Answers ctx (eqFunction (ofValue t unwrap wrap)) := by
  intro args values hargs hcheck honly
  obtain ⟨type1, type2, hvalues, h1, h2⟩ :=
    typecheckArgs_two (by simp [Dsl.nullable]) (by simp [Dsl.nullable]) hcheck
  obtain ⟨v1, v2, rfl, rfl, rfl⟩ := map_eq_pair_iff.mp hvalues
  obtain ⟨arg1, arg2, rfl, harg1, harg2⟩ := forall₂_pair hargs
  have hnull : (v1.typeSpec.onlyNull && v2.typeSpec.onlyNull) = decide (t = .null) := by
    rw [Bool.eq_iff_iff, decide_eq_true_iff, Bool.and_eq_true]
    constructor
    · rintro ⟨h1, h2⟩
      have hargs := honly rfl (by simp [h1, h2])
      cases t <;> first | rfl | cases hargs
    · rintro rfl
      exact ⟨isSupertypeSpec_null.mp h1, isSupertypeSpec_null.mp h2⟩
  have hfault := faultOf_two hnull arg1 arg2
  refine hfault ▸ (nullableErsatz_outcome h1 harg1.2).bind fun a1 _ _ => ?_
  exact (nullableErsatz_outcome h2 harg2.2).bind fun a2 _ _ => ⟨_, rfl, rfl, shape_sql ..⟩

variable {table : Option String} {columns : String → Option TypeSpec}

theorem processingFunctions_answer :
    ∀ function ∈ (createProcessingContext table columns).functions, Answers ctx function := by
  simp only [createProcessingContext, forall_mem_cons]
  refine ⟨notFunction_answers, joinFunction_answers (by decide), joinFunction_answers (by decide),
    eqFunction_answers .null _ _, eqFunction_answers .boolean _ _, eqFunction_answers .integer _ _,
    eqFunction_answers .float _ _, eqFunction_answers .string _ _, likeFunction_answers _ (by decide),
    likeFunction_answers _ (by decide), searchFunction_answers, likeFunction_answers _ (by decide),
    toStringFunction_answers (by decide) _ _, toStringFunction_answers (by decide) _ _,
    toStringFunction_answers (by decide) _ _, listFunction_answers, containsFunction_answers, by simp⟩

/-- Two arguments that can only be null are compared as such. -/
theorem findFunction_onlyNull {types : List TypeSpec} {function : QueryFunction}
    (h : (createProcessingContext table columns).findFunction "=" types = .ok function)
    (honly : types.all onlyNull = true) :
    function.signature.args = (eqFunction Dsl.null).2.signature.args := by
  have hoverloads : (createProcessingContext table columns).overloads "=" =
      [(eqFunction Dsl.null).2, (eqFunction Dsl.boolean).2, (eqFunction integer).2,
        (eqFunction float).2, (eqFunction Dsl.string).2] := rfl
  rw [findFunction, hoverloads] at h
  obtain ⟨found, hfound, h⟩ := bind_eq_ok.mp h
  cases found with
  | none => cases h
  | some f =>
    obtain rfl := ok.inj h
    -- two arguments, since some overload accepts them
    obtain ⟨hmem, hcheck⟩ := findOverload_spec hfound
    have hargs : ∃ t, f.signature.args = [.union t AstType.null, .union t AstType.null] := by
      simp only [mem_cons, not_mem_nil, or_false] at hmem
      rcases hmem with rfl | rfl | rfl | rfl | rfl <;> exact ⟨_, rfl⟩
    obtain ⟨t, hargs⟩ := hargs
    rw [Signature.typecheckArgs, hargs] at hcheck
    obtain ⟨type1, type2, rfl, -, -⟩ := @typecheckArgs_two types _ _ f.signature.result (by simp)
      (by simp) hcheck
    have h1 : type1.onlyNull = true ∧ type2.onlyNull = true := by simpa using honly
    have hnull : (eqFunction Dsl.null).2.signature.typecheckArgs [type1, type2] = .ok () := by
      have hsuper1 := isSupertypeSpec_null.mpr h1.1
      have hsuper2 := isSupertypeSpec_null.mpr h1.2
      change Signature.typecheckFrom 0 [.union AstType.null AstType.null, .union AstType.null AstType.null]
        [type1, type2] = .ok ()
      simp only [Signature.typecheckFrom, hsuper1, hsuper2]
    rw [findOverload, hnull] at hfound
    obtain rfl := Option.some.inj (ok.inj hfound)
    rfl

end Functions

/-! ### Queries -/

section Queries

variable {table : Option String} {columns : String → Option TypeSpec}

mutual

theorem evaluateAst_outcome : ∀ {query : SearchAst} {type : TypeSpec},
    (createProcessingContext table columns).typecheckSearchQuery query = .ok type →
    (createProcessingContext table columns).Outcome query.calls
      (fun value => value.typeSpec = type ∧ Shape query value)
      ((createProcessingContext table columns).firstFault query)
      ((createProcessingContext table columns).evaluateAst query)
  | .null, _, h => by
    obtain rfl := ok.inj h
    exact ⟨.null, rfl, rfl, shape_literal (by simp [SearchAst.isNull]) rfl rfl⟩
  | .boolean b, _, h => by
    obtain rfl := ok.inj h
    exact ⟨.boolean b, rfl, rfl, shape_literal (by simp [SearchAst.isNull]) rfl rfl⟩
  | .integer n, _, h => by
    obtain rfl := ok.inj h
    exact ⟨.integer n, rfl, rfl, shape_literal (by simp [SearchAst.isNull]) rfl rfl⟩
  | .float n, _, h => by
    obtain rfl := ok.inj h
    exact ⟨.float n, rfl, rfl, shape_literal (by simp [SearchAst.isNull]) rfl rfl⟩
  | .string s, _, h => by
    obtain rfl := ok.inj h
    exact ⟨.string s, rfl, rfl, shape_literal (by simp [SearchAst.isNull]) rfl rfl⟩
  | .column name, _, h => by
    rw [typecheckSearchQuery] at h
    split at h
    · next spec hspec =>
      obtain rfl := ok.inj h
      refine ⟨.column name table spec, ?_, rfl, by simp [SearchAst.isNull],
        by simp [SearchAst.isLiteral], fun _ => .inl rfl⟩
      rw [evaluateAst, hspec]
      rfl
    · cases h
  | .call name args, _, h => by
    obtain ⟨types, htypes, h⟩ := bind_eq_ok.mp h
    obtain ⟨function, hfind, h⟩ := bind_eq_ok.mp h
    obtain rfl := ok.inj h
    rw [QueryContext.firstFault, SearchAst.calls, findSome?_append, evaluateAst]
    refine ((evaluateAsts_outcome htypes).mono (subset_append_left ..)).bind ?_
    rintro values - ⟨rfl, hargs⟩
    obtain ⟨hmem, hcheck⟩ := findFunction_spec hfind
    have honly : name = "=" → (values.map TypedAst.typeSpec).all onlyNull = true →
        function.signature.args = (eqFunction Dsl.null).2.signature.args := by
      rintro rfl
      exact findFunction_onlyNull hfind
    have hanswer := processingFunctions_answer _ hmem hargs hcheck honly
    have hfault : [(name, args)].findSome?
        (createProcessingContext table columns).callFault =
        faultOf name args (values.map TypedAst.typeSpec) := by
      rw [findSome?_singleton, QueryContext.callFault, htypes]
    rw [hfault, QueryContext.call, hfind]
    exact hanswer.mono (subset_append_right ..)

theorem evaluateAsts_outcome : ∀ {queries : List SearchAst} {types : List TypeSpec},
    (createProcessingContext table columns).typecheckSearchQueries queries = .ok types →
    (createProcessingContext table columns).Outcome (SearchAst.callsOfAll queries)
      (fun values => values.map TypedAst.typeSpec = types ∧ List.Forall₂ (fun arg value =>
        (createProcessingContext table columns).evaluateAst arg = .ok value ∧
          Shape arg value) queries values) ((SearchAst.callsOfAll queries).findSome?
        (createProcessingContext table columns).callFault)
      ((createProcessingContext table columns).evaluateAsts queries)
  | [], _, h => by
    cases h
    exact ⟨[], rfl, rfl, .nil⟩
  | query :: queries, _, h => by
    obtain ⟨type, htype, h⟩ := bind_eq_ok.mp h
    obtain ⟨types, htypes, h⟩ := bind_eq_ok.mp h
    cases h
    rw [SearchAst.callsOfAll, findSome?_append, evaluateAsts]
    refine ((evaluateAst_outcome htype).mono (subset_append_left ..)).bind ?_
    rintro value hvalue ⟨rfl, hshape⟩
    rw [← Option.or_none (o := (SearchAst.callsOfAll queries).findSome? _)]
    refine ((evaluateAsts_outcome htypes).mono (subset_append_right ..)).bind ?_
    rintro values - ⟨rfl, hvalues⟩
    exact ⟨_, rfl, rfl, .cons ⟨hvalue, hshape⟩ hvalues⟩

end

end Queries

/-- A query that typechecks is evaluated, or has a column or an expression for a plain argument, iff the
    first faulty call is not one with an argument that may be null without being the value null. -/
theorem evaluateAst_safe_iff (table : Option String) (columns : String → Option TypeSpec)
    (query : SearchAst) (type : TypeSpec)
    (h : (createProcessingContext table columns).typecheckSearchQuery query = .ok type) :
    (createProcessingContext table columns).Safe query ↔
      (createProcessingContext table columns).firstFault query ≠ some .nullable := by
  have houtcome := evaluateAst_outcome h
  generalize (createProcessingContext table columns).firstFault query = fault at houtcome ⊢
  cases fault with
  | none =>
    obtain ⟨value, hvalue, -⟩ := houtcome
    exact iff_of_true (.inl ⟨value, hvalue⟩) (by simp)
  | some fault =>
    cases fault with
    | plain => exact iff_of_true (.inr houtcome) (by simp)
    | nullable =>
      obtain ⟨value, expected, herror⟩ := houtcome
      refine iff_of_false ?_ (by simp)
      rintro (⟨value', hvalue⟩ | ⟨error, herror', name, text, pattern, value', -, -, -, -, rfl⟩)
      · rw [herror] at hvalue
        cases hvalue
      · rw [herror] at herror'
        cases herror'

/-- A comparison is negated, and a pattern that is a column is refused as documented. -/
theorem evaluateAst_safe_columns :
    let ctx := createProcessingContext none fun _ => some AstType.string
    ctx.Safe (.call "not" [.call "=" [.column "name", .null]]) ∧
    ctx.Safe (.call "and" [.call "like" [.column "name", .column "trigram"],
      .call "not" [.call "like" [.column "name", .string "a"]]]) :=
  ⟨(evaluateAst_safe_iff none _ _ _ rfl).mpr (by decide),
    (evaluateAst_safe_iff none _ _ _ rfl).mpr (by decide)⟩

/-- `["not", ["like", ["name"], "a"]]` typechecks, since `like` answers a boolean or null and `not` takes
    one; its evaluation fails with a type error. -/
theorem evaluateAst_not_like :
    let ctx := createProcessingContext none fun _ => some AstType.string
    let query := SearchAst.call "not" [.call "like" [.column "name", .string "a"]]
    ctx.typecheckSearchQuery query = .ok AstType.boolean ∧
    (∃ value, ctx.evaluateAst query = .error (.err (.runtimeTypeCheckFail value AstType.boolean
      (.union AstType.boolean AstType.null)))) ∧ ¬ ctx.Safe query := by
  refine ⟨rfl, ⟨_, rfl⟩, ?_⟩
  rintro (⟨value, hvalue⟩ | ⟨error, herror, name, text, pattern, value, -, -, -, -, rfl⟩)
  · cases hvalue
  · cases herror

end Osrd.Search
