import Osrd.Search.Typing

/-! SQL expressions and how they are written (`editoast/search/src/{context,sqlquery}.rs`).

    The produced text keeps its placeholders apart from the rest, so that a `$1` inside the name of a
    column is not taken for one; `SqlText.render` is the string of the source. -/

namespace Osrd.Search

/-- A 64-bit float of the source; only its text matters here. -/
structure F64 where
  bits : BitVec 64

mutual

/-- A query that carries its type information. -/
inductive TypedAst
  | null
  | boolean (b : Bool)
  | integer (i : Int64)
  | float (n : F64)
  | string (s : String)
  | sequence (items : List TypedAst) (itemType : TypeSpec)
  | column (name : String) (table : Option String) (spec : TypeSpec)
  | sql (expr : SqlQuery) (spec : TypeSpec)

/-- An SQL expression. -/
inductive SqlQuery
  | value (value : TypedAst)
  | call (function : String) (args : List SqlQuery)
  | prefixOp (operator : String) (operand : SqlQuery)
  | infixOp (operator : String) (operands : List SqlQuery)
  | cast (operand : SqlQuery) (ty : String)

end

namespace TypedAst

def typeSpec : TypedAst → TypeSpec
  | .null => AstType.null
  | .boolean _ => AstType.boolean
  | .integer _ => AstType.integer
  | .float _ => AstType.float
  | .string _ => AstType.string
  | .column _ _ spec => spec
  | .sql _ spec => spec
  | .sequence _ itemSpec => .sequence itemSpec

def isErsatz : TypedAst → Bool
  | .column _ _ _ => true
  | .sql _ _ => true
  | _ => false

/-- `From<TypedAst> for SqlQuery`: an SQL expression is unwrapped. -/
def toQuery : TypedAst → SqlQuery
  | .sql expr _ => expr
  | ast => .value ast

end TypedAst

/-! ### Text with placeholders -/

/-- Plain text, or the placeholder of a binding. -/
inductive Piece
  | text (s : String)
  | placeholder (n : ℕ)
deriving DecidableEq

abbrev SqlText := List Piece

namespace SqlText

def ofString (s : String) : SqlText := [.text s]

def placeholders (text : SqlText) : List ℕ :=
  text.filterMap fun piece => match piece with
    | .text _ => none
    | .placeholder n => some n

def parenthesized (text : SqlText) : SqlText := ofString "(" ++ text ++ ofString ")"

/-- `texts.join(separator)` -/
def joinWith (separator : String) (texts : List SqlText) : SqlText :=
  (texts.intersperse (ofString separator)).flatten

end SqlText

/-- The type an array of such items is cast to. -/
def sqlType : TypeSpec → Option String
  | .type .boolean => some "BOOLEAN"
  | .type .integer => some "INTEGER"
  | .type .float => some "NUMERIC"
  | .type .string => some "TEXT"
  | _ => none

section ToSql

open SqlText

-- `format!("{n:?}")`
variable (floatText : F64 → String)

/-! ### Writing a query

    The bindings are threaded through; `none` is the panic on an array whose items have no SQL type. -/

mutual

def valueToSql : TypedAst → List String → Option (SqlText × List String)
  | .null, bindings => some (ofString "NULL", bindings)
  | .boolean true, bindings => some (ofString "TRUE", bindings)
  | .boolean false, bindings => some (ofString "FALSE", bindings)
  | .integer i, bindings => some (ofString (toString i.toInt), bindings)
  | .float n, bindings => some (ofString (floatText n), bindings)
  | .string string, bindings =>
      let bindings := bindings ++ [string]
      some ([.placeholder bindings.length], bindings)
  | .column column none _, bindings => some (ofString ("\"" ++ column ++ "\""), bindings)
  | .column column (some table) _, bindings =>
      some (ofString ("\"" ++ table ++ "\".\"" ++ column ++ "\""), bindings)
  | .sql expr _, bindings => (toSql expr []).map fun (text, _) => (text, bindings)
  | .sequence items itemType, bindings =>
      (sqlType itemType).bind fun cast => (valuesToSql items bindings).map fun (items, bindings) =>
        (ofString "ARRAY[" ++ joinWith "," (items.map parenthesized) ++ ofString "]::" ++
          ofString cast ++ ofString "[]", bindings)

def valuesToSql : List TypedAst → List String → Option (List SqlText × List String)
  | [], bindings => some ([], bindings)
  | value :: values, bindings =>
      (valueToSql value bindings).bind fun (text, bindings) =>
        (valuesToSql values bindings).map fun (texts, bindings) => (text :: texts, bindings)

/-- Builds the SQL code of a query. -/
def toSql : SqlQuery → List String → Option (SqlText × List String)
  | .value value, bindings => valueToSql value bindings
  | .call function args, bindings => (toSqls args bindings).map fun (args, bindings) =>
      (ofString function ++ ofString "(" ++ joinWith ", " (args.map parenthesized) ++ ofString ")", bindings)
  -- the operand is written by `Display`: with bindings of its own, which are dropped
  | .prefixOp operator operand, bindings => (toSql operand []).map fun (operand, _) =>
      (ofString operator ++ ofString " (" ++ operand ++ ofString ")", bindings)
  | .infixOp operator operands, bindings => (toSqls operands bindings).map fun (operands, bindings) =>
      (joinWith (" " ++ operator ++ " ") (operands.map parenthesized), bindings)
  | .cast operand ty, bindings => (toSql operand bindings).map fun (operand, bindings) =>
      (parenthesized operand ++ ofString "::" ++ ofString ty, bindings)

def toSqls : List SqlQuery → List String → Option (List SqlText × List String)
  | [], bindings => some ([], bindings)
  | query :: queries, bindings =>
      (toSql query bindings).bind fun (text, bindings) =>
        (toSqls queries bindings).map fun (texts, bindings) => (text :: texts, bindings)

end

end ToSql

end Osrd.Search
