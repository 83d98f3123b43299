import LoxScript.Diagnostic
import LoxScript.Token.Basic

/-!
# Ways to halt

Why the evaluation of a program can break off: an error of the program that is running, which blames
a token; the exhaustion of the stack or of the turns granted to a loop; and nodes of a hand-built
tree that mean nothing.
-/

namespace LoxScript

/-- What can go wrong while a program runs. -/
inductive RuntimeCause where
  /-- The operand of a minus sign is no number. -/
  | operandNotNumber
  /-- An operand of an arithmetic operator or a comparison is no number. -/
  | operandsNotNumbers
  /-- The operands of a plus sign are neither two numbers nor two texts. -/
  | operandsNotAddable
  /-- A variable is not bound. -/
  | undefinedVariable
deriving DecidableEq, Repr

/-- An error of a running program. -/
structure RuntimeError where
  token : Token
  cause : RuntimeCause
deriving DecidableEq

namespace RuntimeError

/-- The wording of an error. -/
def message (e : RuntimeError) : String :=
  match e.cause with
  | .operandNotNumber => "Operand must be a number."
  | .operandsNotNumbers => "Operands must be numbers."
  | .operandsNotAddable => "Operands must be two numbers or two strings."
  | .undefinedVariable => "Undefined variable '" ++ e.token.lexeme ++ "'."

/-- The report of an error. It has a line only. -/
def diagnostic (e : RuntimeError) : Diagnostic := ⟨e.token.line, "", e.message⟩

end RuntimeError

/-- The report of a stack overflow on the given line. -/
def overflowDiagnostic (line : Int) : Diagnostic := ⟨line, "", "Stack overflow."⟩

/-- Why evaluation breaks off. -/
inductive Halt where
  | error (e : RuntimeError)
  /-- The stack is exhausted. -/
  | overflow
  /-- A node is no expression, or its prefix operator is none. -/
  | invalidExpression
  /-- An operator between two operands is none. -/
  | unknownOperator (op : Token)
  /-- A node is no statement. -/
  | unknownStatement (kind : String) (line : Int)
  /-- A loop went through all the turns granted to it. -/
  | unfinished
deriving DecidableEq

namespace Halt

/-- The wording of an unknown operator or statement. -/
def message : Halt → String
  | error e => e.message
  | unknownOperator op =>
    "Unknown binary operator '" ++ op.lexeme ++ "' on line " ++ toString op.line
  | unknownStatement kind line =>
    "Unknown statement type: " ++ kind ++ " on line " ++ toString line
  | overflow => "Stack overflow."
  | invalidExpression => "Invalid expression."
  | unfinished => "Unfinished."

end Halt

end LoxScript
