import LoxScript.Token.Basic

/-!
# Program trees

Expressions and statements. Every node carries a source line, and the tokens that a run-time error
may have to point at. Trees can be built by hand, so each type also has a node for what is no
expression, or no statement; the grammar never builds it.
-/

namespace LoxScript

/-- An expression. -/
inductive Expr where
  /-- A value that stands for itself. -/
  | literal (value : Value) (line : Int)
  /-- An operator in front of its operand. -/
  | unary (op : Token) (operand : Expr) (line : Int)
  /-- An operator between two operands, both of which are evaluated. -/
  | binary (left : Expr) (op : Token) (right : Expr) (line : Int)
  /-- A connective, whose right operand is evaluated only if the left one does not decide. -/
  | logical (left : Expr) (op : Token) (right : Expr) (line : Int)
  /-- An expression in parentheses. -/
  | grouping (inner : Expr) (line : Int)
  /-- The value of a variable. -/
  | read (name : Token) (line : Int)
  /-- The assignment of a value to a variable. -/
  | assign (name : Token) (value : Expr) (line : Int)
  /-- A node of another kind. -/
  | malformed (kind : String) (line : Int)
deriving DecidableEq, Inhabited

/-- A statement. -/
inductive Stmt where
  /-- An expression that is evaluated for its effect. -/
  | expression (value : Expr) (line : Int)
  /-- Prints the value of an expression. -/
  | print (value : Expr) (line : Int)
  /-- Declares a variable, with a first value or without. -/
  | declare (name : Token) (first : Option Expr) (line : Int)
  /-- Statements with a scope of their own. -/
  | block (body : List Stmt) (line : Int)
  /-- Runs a statement if a condition holds. -/
  | ifThen (condition : Expr) (body : Stmt) (line : Int)
  /-- Runs one of two statements. -/
  | ifElse (condition : Expr) (body other : Stmt) (line : Int)
  /-- Runs a statement again and again, while a condition holds. -/
  | loop (condition : Expr) (body : Stmt) (line : Int)
  /-- A node of another kind. -/
  | malformed (kind : String) (line : Int)
deriving Inhabited

/-- The line of an expression. -/
def Expr.line : Expr → Int
  | literal _ l | unary _ _ l | binary _ _ _ l | logical _ _ _ l | grouping _ l | read _ l
  | assign _ _ l | malformed _ l => l

/-- The line of a statement. -/
def Stmt.line : Stmt → Int
  | expression _ l | print _ l | declare _ _ l | block _ l | ifThen _ _ l | ifElse _ _ _ l
  | loop _ _ l | malformed _ l => l

end LoxScript
