import Osrd.Search.Sql

/-! Query contexts, the specifiers of argument types and the functions of the language
    (`editoast/search/src/{context,dsl,process}.rs`). -/

namespace Osrd.Search

/-- The errors; where the source keeps the debug text of a value, the value itself. -/
inductive ProcessingError
  | undefinedFunction (function : String)
  | undefinedOverload (function pprint : String)
  | functionTypeMismatch (typeError : TypeCheckError) (inFunction : String)
  | unexpectedColumn (column : String)
  | runtimeTypeCheckFail (value : TypedAst) (expected actual : TypeSpec)
  | unexpectedErsatz (value : TypedAst) (expected : TypeSpec)
  | functionError (function error : String)

abbrev Processed (α : Type) := Result ProcessingError α

structure QueryFunction where
  signature : Signature
  run : List TypedAst → Processed TypedAst

/-- The environment of a query; `functions` is in the order of the `def_function` calls. -/
structure QueryContext where
  functions : List (String × QueryFunction)
  searchTableName : Option String
  columnsType : String → Option TypeSpec

namespace QueryContext

def overloads (ctx : QueryContext) (functionName : String) : List QueryFunction :=
  (ctx.functions.filter (·.1 = functionName)).map (·.2)

/-- The first overload that accepts the arguments. -/
def findOverload (arglistTypes : List TypeSpec) : List QueryFunction → Processed (Option QueryFunction)
  | [] => .ok none
  | function :: functions =>
      match function.signature.typecheckArgs arglistTypes with
      | .ok () => .ok (some function)
      | .error .panic => .error .panic
      | .error (.err _) => findOverload arglistTypes functions

def findFunction (ctx : QueryContext) (functionName : String) (arglistTypes : List TypeSpec) :
    Processed QueryFunction :=
  match ctx.overloads functionName with
  | [] => .error (.err (.undefinedFunction functionName))
  | [function] =>
      match function.signature.typecheckArgs arglistTypes with
      | .ok () => .ok function
      | .error .panic => .error .panic
      | .error (.err error) => .error (.err (.functionTypeMismatch error functionName))
  | functions => do
      match ← findOverload arglistTypes functions with
      | some function => return function
      | none =>
          let pprint := "(" ++ ", ".intercalate (arglistTypes.map TypeSpec.display) ++ ")"
          throw (.err (.undefinedOverload functionName pprint))

def call (ctx : QueryContext) (functionName : String) (args : List TypedAst) : Processed TypedAst := do
  let function ← ctx.findFunction functionName (args.map TypedAst.typeSpec)
  function.run args

end QueryContext

/-! ### Type specifiers -/

/-- The trait `Type`, with `ArgType` and `ReturnType` as parameters. -/
structure Dsl (ArgType ReturnType : Type) where
  typeSpec : TypeSpec
  typecheck : TypedAst → Processed Unit
  intoArg : TypedAst → Processed ArgType
  fromReturn : ReturnType → Processed TypedAst

namespace Dsl

/-- `Ok(())` when the type contains that of the value. -/
def checkSpec (spec : TypeSpec) (value : TypedAst) : Processed Unit :=
  match spec.isSupertypeSpec value.typeSpec with
  | none => .error .panic
  | some false => .error (.err (.runtimeTypeCheckFail value spec value.typeSpec))
  | some true => .ok ()

/-- The default `typecheck` of the trait. -/
def typecheckValue (spec : TypeSpec) (value : TypedAst) : Processed Unit :=
  if value.isErsatz then .error (.err (.unexpectedErsatz value spec)) else checkSpec spec value

/-- A specifier of plain values; `unwrap` is `none` where the source is unreachable. -/
def ofValue {α : Type} (spec : AstType) (unwrap : TypedAst → Option α) (wrap : α → TypedAst) :
    Dsl α α where
  typeSpec := spec
  typecheck := typecheckValue spec
  intoArg := fun value => do
    typecheckValue spec value
    match unwrap value with
    | some a => return a
    | none => throw .panic
  fromReturn := fun a => .ok (wrap a)

def null : Dsl Unit Unit := ofValue .null (fun _ => some ()) fun _ => .null

def boolean : Dsl Bool Bool :=
  ofValue .boolean (fun value => match value with | .boolean b => some b | _ => none) .boolean

def integer : Dsl Int64 Int64 :=
  ofValue .integer (fun value => match value with | .integer n => some n | _ => none) .integer

def float : Dsl F64 F64 :=
  ofValue .float (fun value => match value with | .float n => some n | _ => none) .float

def string : Dsl String String :=
  ofValue .string (fun value => match value with | .string s => some s | _ => none) .string

variable {α ρ : Type} (T : Dsl α ρ)

def sql : Dsl SqlQuery SqlQuery where
  typeSpec := T.typeSpec
  typecheck := typecheckValue T.typeSpec
  intoArg := fun value => do
    typecheckValue T.typeSpec value
    match value with
    | .sql expr _ => return expr
    | _ => throw .panic
  fromReturn := fun query =>
    match query with
    | .value value => .ok value
    | query => .ok (.sql query T.typeSpec)

/-- `Ersatz::typecheck` -/
def typecheckErsatz (value : TypedAst) : Processed Unit :=
  if value.isErsatz then checkSpec T.typeSpec value else T.typecheck value

def ersatz : Dsl TypedAst TypedAst where
  typeSpec := T.typeSpec
  typecheck := T.typecheckErsatz
  intoArg := fun value => do
    T.typecheckErsatz value
    return value
  fromReturn := fun value => do
    T.typecheckErsatz value
    return value

def nullable : Dsl (Option α) (Option ρ) where
  typeSpec := .union T.typeSpec AstType.null
  typecheck := typecheckValue (.union T.typeSpec AstType.null)
  intoArg := fun value =>
    match value with
    | .null => .ok none
    | value => do return some (← T.intoArg value)
  fromReturn := fun value =>
    match value with
    | some value => T.fromReturn value
    | none => .ok .null

def array : Dsl (List α) (List ρ) where
  typeSpec := .sequence T.typeSpec
  typecheck := typecheckValue (.sequence T.typeSpec)
  intoArg := fun value => do
    typecheckValue (.sequence T.typeSpec) value
    match value with
    | .sequence items _ => items.mapM T.intoArg
    | _ => throw .panic
  fromReturn := fun items => do
    return .sequence (← items.mapM T.fromReturn) T.typeSpec

end Dsl

/-- The `map_err` on the function given to `def_function_1` or `def_function_2`. -/
def functionResult {ρ : Type} (name : String) : Except String ρ → Processed ρ
  | .ok value => .ok value
  | .error error => .error (.err (.functionError name error))

section DefFunction

variable {α₁ α₂ α ρ₁ ρ₂ ρ : Type}

/-- `def_function_1::<P1, R>` -/
def function1 (P1 : Dsl α₁ ρ₁) (R : Dsl α ρ) (name : String) (f : α₁ → Except String ρ) :
    String × QueryFunction where
  fst := name
  snd.signature := ⟨[P1.typeSpec], R.typeSpec⟩
  snd.run := fun args =>
    match args with
    | arg :: _ => do R.fromReturn (← functionResult name (f (← P1.intoArg arg)))
    | [] => .error .panic

/-- `def_function_2::<P1, P2, R>` -/
def function2 (P1 : Dsl α₁ ρ₁) (P2 : Dsl α₂ ρ₂) (R : Dsl α ρ) (name : String)
    (f : α₁ → α₂ → Except String ρ) : String × QueryFunction where
  fst := name
  snd.signature := ⟨[P1.typeSpec, P2.typeSpec], R.typeSpec⟩
  snd.run := fun args =>
    match args with
    | arg1 :: arg2 :: _ => do
        R.fromReturn (← functionResult name (f (← P1.intoArg arg1) (← P2.intoArg arg2)))
    | arg1 :: [] => do
        let _ ← P1.intoArg arg1
        throw .panic
    | [] => .error .panic

end DefFunction

/-! ### The functions of the language -/

/-- `From<Option<T>> for TypedAst` -/
def TypedAst.ofOption {α : Type} (wrap : α → TypedAst) : Option α → TypedAst
  | some value => wrap value
  | none => .null

/-- A nullable value that may be a column or an SQL expression. -/
abbrev nullableErsatz {α ρ : Type} (T : Dsl α ρ) : Dsl (Option TypedAst) (Option TypedAst) :=
  T.ersatz.nullable

def infixQuery (operator : String) (left right : TypedAst) : SqlQuery :=
  .infixOp operator [left.toQuery, right.toQuery]

def notFunction : String × QueryFunction :=
  function1 (nullableErsatz Dsl.boolean) Dsl.boolean.sql "not" fun x =>
    .ok (.prefixOp "NOT" (TypedAst.ofOption id x).toQuery)

/-- `and` and `or` -/
def joinFunction (name operator : String) : String × QueryFunction where
  fst := name
  snd.signature := ⟨[.variadic (.union AstType.null AstType.boolean)], AstType.boolean⟩
  snd.run := fun args => .ok (.sql (.infixOp operator (args.map TypedAst.toQuery)) AstType.boolean)

def eqFunction {α ρ : Type} (T : Dsl α ρ) : String × QueryFunction :=
  function2 (nullableErsatz T) (nullableErsatz T) Dsl.boolean.sql "=" fun left right =>
    .ok (infixQuery "=" (TypedAst.ofOption id left) (TypedAst.ofOption id right))

/-- `like`, `ilike` and `=i` -/
def likeFunction {α ρ : Type} (name operator : String) (R : Dsl α ρ) : String × QueryFunction :=
  function2 Dsl.string.ersatz Dsl.string.nullable R.sql name fun string pattern =>
    .ok (infixQuery operator string (TypedAst.ofOption .string pattern))

def searchFunction : String × QueryFunction :=
  function2 Dsl.string.ersatz Dsl.string.nullable Dsl.boolean.sql "search" fun value pattern =>
    .ok (match pattern with
      | some pattern => .infixOp "ILIKE"
          [value.toQuery, .call "osrd_to_ilike_search" [(TypedAst.string pattern).toQuery]]
      | none => .value (.boolean false))

def toStringFunction {α ρ : Type} (T : Dsl α ρ) : String × QueryFunction :=
  function1 (nullableErsatz T) Dsl.string.sql "to_string" fun value =>
    .ok (.cast (value.getD (.string "")).toQuery "TEXT")

def listFunction : String × QueryFunction where
  fst := "list"
  snd.signature := ⟨[.variadic AstType.string], .sequence AstType.string⟩
  snd.run := fun args => .ok (.sequence args AstType.string)

def containsFunction : String × QueryFunction :=
  function2 Dsl.string.array.ersatz Dsl.string.array.ersatz Dsl.boolean.sql "contains"
    fun sub array => .ok (infixQuery "<@" sub array)

/-- `create_processing_context`, with the name of the table and the typed columns added to it. -/
def createProcessingContext (searchTableName : Option String)
    (columnsType : String → Option TypeSpec) : QueryContext where
  functions := [
    notFunction,
    joinFunction "and" "AND",
    joinFunction "or" "OR",
    eqFunction Dsl.null,
    eqFunction Dsl.boolean,
    eqFunction Dsl.integer,
    eqFunction Dsl.float,
    eqFunction Dsl.string,
    likeFunction "like" "LIKE" Dsl.boolean.nullable,
    likeFunction "ilike" "ILIKE" Dsl.boolean.nullable,
    searchFunction,
    likeFunction "=i" "ILIKE" Dsl.boolean,
    toStringFunction Dsl.string,
    toStringFunction Dsl.integer,
    toStringFunction Dsl.float,
    listFunction,
    containsFunction]
  searchTableName := searchTableName
  columnsType := columnsType

/-! ### Queries -/

inductive SearchAst
  | null
  | boolean (b : Bool)
  | integer (n : Int64)
  | float (n : F64)
  | string (s : String)
  | column (name : String)
  | call (function : String) (args : List SearchAst)

namespace QueryContext

variable (ctx : QueryContext)

mutual

/-- The type of a query. -/
def typecheckSearchQuery : SearchAst → Processed TypeSpec
  | .null => .ok AstType.null
  | .boolean _ => .ok AstType.boolean
  | .integer _ => .ok AstType.integer
  | .float _ => .ok AstType.float
  | .string _ => .ok AstType.string
  | .column column =>
      match ctx.columnsType column with
      | some spec => .ok spec
      | none => .error (.err (.unexpectedColumn column))
  | .call functionName args => do
      let arglistTypes ← typecheckSearchQueries args
      let function ← ctx.findFunction functionName arglistTypes
      return function.signature.result

def typecheckSearchQueries : List SearchAst → Processed (List TypeSpec)
  | [] => .ok []
  | arg :: args => do
      let type ← typecheckSearchQuery arg
      return type :: (← typecheckSearchQueries args)

end

mutual

/-- Evaluates a query within the context. -/
def evaluateAst : SearchAst → Processed TypedAst
  | .null => .ok .null
  | .boolean b => .ok (.boolean b)
  | .integer n => .ok (.integer n)
  | .float n => .ok (.float n)
  | .string s => .ok (.string s)
  | .column name =>
      match ctx.columnsType name with
      | some spec => .ok (.column name ctx.searchTableName spec)
      | none => .error .panic
  | .call functionName queryArgs => do
      let args ← evaluateAsts queryArgs
      ctx.call functionName args

def evaluateAsts : List SearchAst → Processed (List TypedAst)
  | [] => .ok []
  | sub :: subs => do
      let value ← evaluateAst sub
      return value :: (← evaluateAsts subs)

end

end QueryContext

end Osrd.Search
