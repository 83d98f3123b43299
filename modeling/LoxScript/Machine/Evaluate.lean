import LoxScript.Grammar.Tree
import LoxScript.Machine.Operation
import LoxScript.Scope.Chain

/-!
# Evaluating expressions

Expressions are evaluated in a chain of scopes, operands from left to right. Evaluation can change
bindings, but it opens and closes no scope and prints nothing.

Nested evaluation takes room on the stack. The stack is also exhausted when one of the variables of
a `trap` is read, which lets a run be broken off at any chosen place.
-/

namespace LoxScript

/-- An evaluation: it works on a chain of scopes. -/
abbrev Eval := EStateM Halt Chain

namespace Eval

variable {α : Type}

/-- The outcome of an operation on values. -/
def ofExcept : Except Halt α → Eval α
  | .ok a => pure a
  | .error h => throw h

/-- The value of a variable. -/
def read (trap : String → Bool) (name : Token) : Eval Value := fun c =>
  if trap name.lexeme then .error .overflow c
  else
    match c.find? name.lexeme with
    | some v => .ok v c
    | none => .error (.error ⟨name, .undefinedVariable⟩) c

/-- Gives a variable another value. -/
def assign (name : Token) (v : Value) : Eval Unit := fun c =>
  match c.assign? name.lexeme v with
  | some c => .ok () c
  | none => .error (.error ⟨name, .undefinedVariable⟩) c

end Eval

/-- Evaluates an expression. -/
def Expr.eval (trap : String → Bool) : (room : Nat) → Expr → Eval Value
  | 0, _ => throw .overflow
  | _ + 1, literal v _ => return v
  | room + 1, grouping e _ => e.eval trap room
  | _ + 1, read name _ => Eval.read trap name
  | room + 1, assign name e _ => do
    let v ← e.eval trap room
    Eval.assign name v
    return v
  | room + 1, logical l op r _ => do
    let v ← l.eval trap room
    if v.truthy = (op.kind == .orWord) then return v
    else r.eval trap room
  | room + 1, unary op e _ => do
    let v ← e.eval trap room
    Eval.ofExcept (v.unary op)
  | room + 1, binary l op r _ => do
    let v ← l.eval trap room
    let w ← r.eval trap room
    Eval.ofExcept (Value.binary op v w)
  | _ + 1, malformed _ _ => throw .invalidExpression

end LoxScript
