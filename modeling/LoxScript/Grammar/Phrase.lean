import LoxScript.Grammar.Parse
import LoxScript.Grammar.Tier

/-!
# The grammar of expressions

From the loosest to the tightest: assignment, which associates to the right; the six tiers of
operators; the prefix operators; literals, variables and parentheses.

The tiers are read by precedence climbing: after an operand, operators are folded from the left as
long as they bind tightly enough, and the right operand of each takes all that binds more tightly.

Every construct is described by what it does with its parts, so that the only recursions are the
climb itself, which passes a token each time, and the nesting of constructs, which is bounded by the
`room` at hand: each prefix operator, each parenthesis and each assigned value takes some of it, and
where it runs out the token to come is blamed for being too deeply nested.
-/

namespace LoxScript

/-- The expression that a token is by itself. -/
def Expr.ofToken? (t : Token) : Option Expr :=
  match t.kind with
  | .falseWord => some (.literal (.bool false) t.line)
  | .trueWord => some (.literal (.bool true) t.line)
  | .nilWord => some (.literal .nil t.line)
  | .number | .text => some (.literal t.literal t.line)
  | .identifier => some (.read t t.line)
  | _ => none

namespace Parse

/-- A literal, a variable, or an expression in parentheses. -/
def primaryOf (inner : Parse Expr) : Parse Expr := do
  match ← look with
  | none => fail .expectExpression
  | some t =>
    match Expr.ofToken? t with
    | some e =>
      let _ ← advance
      return e
    | none =>
      if t.kind = .leftParen then
        let _ ← advance
        let e ← inner
        let _ ← expect .rightParen (.expectRightParen .expression)
        return .grouping e t.line
      else fail .expectExpression

/-- Prefix operators, which nest to the right, in front of a primary expression. -/
def unaryOf (nested primary : Parse Expr) : Parse Expr := do
  match ← accept [.bang, .minus] with
  | some op =>
    let e ← nested
    return .unary op e op.line
  | none => primary

/-- Folds operators that bind at `least` or more tightly onto the operand `left`. At most `fuel`
operators are read, in all nested calls together. -/
def climb (operand : Parse Expr) : (fuel least : Nat) → (left : Expr) → Parse Expr
  | 0, _, left => return left
  | fuel + 1, least, left => do
    match (← look).bind fun t => Tier.of? t.kind with
    | none => return left
    | some tier =>
      if tier.level < least then return left
      else
        let op ← advance
        let first ← operand
        let right ← climb operand fuel (tier.level + 1) first
        climb operand fuel least (tier.join left op right)

/-- Operands joined by operators that bind at `least` or more tightly. -/
def tiers (operand : Parse Expr) (least : Nat) : Parse Expr := do
  let left ← operand
  climb operand (← remaining) least left

/-- An assignment, or what its left side is by itself. The left side is read as any expression is;
if it is no variable, the equals sign is noted as an error and the value is dropped. -/
def assignmentOf (target value : Parse Expr) : Parse Expr := do
  let left ← target
  match ← accept [.equal] with
  | none => return left
  | some sign =>
    let e ← value
    match left with
    | .read name _ => return .assign name e name.line
    | _ =>
      note ⟨sign, .invalidTarget⟩
      return left

mutual

/-- An operand: prefix operators and a primary expression. -/
def unary : (room : Nat) → Parse Expr
  | 0 => fail .tooDeep
  | room + 1 => unaryOf (unary room) (primaryOf (expression room))

/-- An expression. -/
def expression : (room : Nat) → Parse Expr
  | 0 => fail .tooDeep
  | room + 1 => assignmentOf (tiers (unary room) 1) (expression room)

end

end Parse

end LoxScript
