import Mathlib.Data.List.Basic

/-! The types of the search query language (`editoast/search/src/typing.rs`).

    A function that can panic answers `none`, or `Failure.panic` when it can also return an error. -/

namespace Osrd.Search

/-- How a fallible function of the source fails. -/
inductive Failure (Err : Type)
  | err (e : Err)
  | panic

abbrev Result (Err α : Type) := Except (Failure Err) α

inductive AstType
  | null
  | boolean
  | integer
  | float
  | string
deriving DecidableEq

/-- Combines the atomic types into more complex ones. -/
inductive TypeSpec
  | any
  | type (t : AstType)
  | union (left right : TypeSpec)
  | sequence (item : TypeSpec)
  | variadic (t : TypeSpec)
  | function (args : List TypeSpec) (result : TypeSpec)

instance : Coe AstType TypeSpec := ⟨TypeSpec.type⟩

inductive TypeCheckError
  | variadicArgTypeMismatch (expected actual : TypeSpec)
  | argTypeMismatch (expected actual : TypeSpec) (argPos : ℕ)
  | argMissing (expected : TypeSpec) (argPos : ℕ)
  | unexpectedArg (argType : TypeSpec)

def AstType.display : AstType → String
  | .null => "Null"
  | .boolean => "Boolean"
  | .integer => "Integer"
  | .float => "Float"
  | .string => "String"

namespace TypeSpec

mutual

def display : TypeSpec → String
  | .any => "Any"
  | .type t => t.display
  | .union left right => left.display ++ " | " ++ right.display
  | .sequence item => "[" ++ item.display ++ "]"
  | .variadic t => "variadic " ++ t.display
  | .function args result => " -> ".intercalate (displays args) ++ " -> " ++ result.display

def displays : List TypeSpec → List String
  | [] => []
  | spec :: specs => spec.display :: displays specs

end

/-- Whether the type contains an atomic one. -/
def isSupertype : TypeSpec → AstType → Bool
  | .any, _ => true
  | .type t, t' => t = t'
  | .union left right, t' => left.isSupertype t' || right.isSupertype t'
  | .variadic t, t' => t.isSupertype t'
  | .function args _, _ => args.isEmpty
  | .sequence _, _ => false

/-- Whether `self ⊇ spec`; `none` for the panics on a variadic or function type on the right. -/
def isSupertypeSpec : TypeSpec → TypeSpec → Option Bool
  | .any, _ => some true
  | _, .any => some false
  | self, .type t => some (self.isSupertype t)
  | self, .union left right =>
      match self.isSupertypeSpec left with
      | some true => self.isSupertypeSpec right
      | answer => answer
  | _, .variadic _ => none
  | _, .function _ _ => none
  | .sequence itemSpec, .sequence otherItemSpec => itemSpec.isSupertypeSpec otherItemSpec
  | _, .sequence _ => some false

end TypeSpec

/-- The signature of a function of the language, a `TypeSpec::Function` by construction. -/
structure Signature where
  args : List TypeSpec
  result : TypeSpec

namespace Signature

/-- All the remaining arguments have the variadic type. -/
def typecheckVariadic (expected : TypeSpec) : List TypeSpec → Result TypeCheckError Unit
  | [] => .ok ()
  | arg :: args =>
      match expected.isSupertypeSpec arg with
      | none => .error .panic
      | some false => .error (.err (.variadicArgTypeMismatch expected arg))
      | some true => typecheckVariadic expected args

/-- The loop over the expected arguments from position `i` on. -/
def typecheckFrom (i : ℕ) : List TypeSpec → List TypeSpec → Result TypeCheckError Unit
  | [], [] => .ok ()
  | [], arg :: _ => .error (.err (.unexpectedArg arg))
  | .variadic expected :: _, args => typecheckVariadic expected args
  | expected :: _, [] => .error (.err (.argMissing expected i))
  | expected :: fargs, arg :: args =>
      match expected.isSupertypeSpec arg with
      | none => .error .panic
      | some false => .error (.err (.argTypeMismatch expected arg i))
      | some true => typecheckFrom (i + 1) fargs args

/-- Whether the signature accepts arguments of these types. -/
def typecheckArgs (self : Signature) (args : List TypeSpec) : Result TypeCheckError Unit :=
  typecheckFrom 0 self.args args

end Signature

end Osrd.Search
