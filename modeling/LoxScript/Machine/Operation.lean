import LoxScript.Machine.Halt

/-!
# Operations on values

What the operators do with the values of their operands. Only the kind of the operator's token
matters; the token itself is needed to blame it.
-/

namespace LoxScript

namespace Value

/-- A prefix operator. -/
def unary (op : Token) (v : Value) : Except Halt Value :=
  match op.kind with
  | .minus =>
    match v with
    | number x => .ok (number (-x))
    | _ => .error (.error ⟨op, .operandNotNumber⟩)
  | .bang => .ok (bool !v.truthy)
  | _ => .error .invalidExpression

/-- The sum of two numbers, or two texts one after the other. -/
def add (op : Token) : Value → Value → Except Halt Value
  | number x, number y => .ok (number (x + y))
  | text s, text t => .ok (text (s ++ t))
  | _, _ => .error (.error ⟨op, .operandsNotAddable⟩)

/-- An operator on two numbers. -/
def numeric (op : Token) (x y : Float) : Except Halt Value :=
  match op.kind with
  | .minus => .ok (number (x - y))
  | .star => .ok (number (x * y))
  | .slash => .ok (number (x / y))
  | .greater => .ok (bool (y < x))
  | .greaterEqual => .ok (bool (y ≤ x))
  | .less => .ok (bool (x < y))
  | .lessEqual => .ok (bool (x ≤ y))
  | _ => .error (.unknownOperator op)

/-- An operator between two operands. Equality is defined for all values, a sum for numbers and for
texts, and whatever else the operator may be, its operands must be numbers. -/
def binary (op : Token) (v w : Value) : Except Halt Value :=
  match op.kind with
  | .equalEqual => .ok (bool (v.equal w))
  | .bangEqual => .ok (bool !(v.equal w))
  | .plus => add op v w
  | _ =>
    match v, w with
    | number x, number y => numeric op x y
    | _, _ => .error (.error ⟨op, .operandsNotNumbers⟩)

end Value

end LoxScript
