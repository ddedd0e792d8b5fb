import Mathlib.Tactic.Common

/-!
# Sql — the syntax trees the SQL parser hands to the rule compiler

Statements, queries and expressions as `sqlparser` builds them, down to what the compiler tells
apart.  Clauses and forms it never looks into are kept as their SQL text, with the expressions that occur
in them.
-/

namespace Tenon.Core

inductive BinaryOperator where
  | plus
  | minus
  | multiply
  | divide
  | gt
  | gtEq
  | lt
  | ltEq
  | eq
  | notEq
  | and
  | or
  -- modulo, xor, string concatenation, bit operations, ...
  | other (sql : String)
  deriving DecidableEq

namespace BinaryOperator

def isLogical : BinaryOperator → Bool
  | .and | .or => true
  | _ => false

def isComparison : BinaryOperator → Bool
  | .gt | .gtEq | .lt | .ltEq | .eq | .notEq => true
  | _ => false

def isArithmetic : BinaryOperator → Bool
  | .plus | .minus | .multiply | .divide => true
  | _ => false

end BinaryOperator

structure Ident where
  value : String
  quoteStyle : Option Char
  deriving DecidableEq

abbrev ObjectName := List Ident

inductive SqlValue where
  | number (num : String) (long : Bool)
  | singleQuotedString (s : String)
  | boolean (b : Bool)
  | other (sql : String)

inductive FunctionArg (ε : Type) where
  -- `FunctionArg::Unnamed(FunctionArgExpr::Expr(_))`
  | unnamedExpr (expr : ε)
  | other (sql : String) (parts : List ε)

inductive FunctionArguments (ε : Type) where
  | none
  | subquery (sql : String) (parts : List ε)
  | list (args : List (FunctionArg ε))

inductive Expr where
  | identifier (ident : Ident)
  | compoundIdentifier (idents : List Ident)
  | value (v : SqlValue)
  | binaryOp (left : Expr) (op : BinaryOperator) (right : Expr)
  | nested (inner : Expr)
  -- `clauses` are the expressions of FILTER, OVER and the like
  | function (name : ObjectName) (args : FunctionArguments Expr) (clauses : List Expr)
  | mapAccess (column : Expr) (keys : List Expr)
  | arrayIndex (obj : Expr) (indexes : List Expr)
  -- unary operations, casts, CASE, subqueries, ...
  | other (sql : String) (parts : List Expr)

inductive SelectItem where
  | unnamedExpr (expr : Expr)
  | exprWithAlias (expr : Expr) (aliasName : Ident)
  | qualifiedWildcard (name : ObjectName)
  | wildcard (options : Option String)

structure TableAlias where
  name : Ident

inductive TableFactor where
  -- `parts` are the expressions of its arguments and hints
  | table (name : ObjectName) (tableAlias : Option TableAlias) (parts : List Expr)
  | other (sql : String)

structure TableWithJoins where
  relation : TableFactor
  joins : List String

inductive GroupByExpr where
  | all
  -- without a GROUP BY clause the list is empty
  | expressions (exprs : List Expr)

structure Select where
  distinct : Option String
  top : Option String
  projection : List SelectItem
  fromTables : List TableWithJoins
  selection : Option Expr
  groupBy : GroupByExpr
  having : Option Expr
  -- the expressions of the other clauses: LATERAL VIEW, QUALIFY, SORT BY, ...
  others : List Expr

inductive SetExpr where
  | select (select : Select)
  | other (sql : String)

structure Query where
  withClause : Option String
  body : SetExpr
  orderBy : List Expr
  limit : Option Expr
  limitBy : List Expr
  offset : Option Expr
  fetch : Option String

inductive Statement where
  | query (query : Query)
  | other (sql : String)

end Tenon.Core
