import LoxScript.Grammar.Tree

/-!
# Tiers of precedence

The operators between two operands form six tiers. Operators of one tier associate to the left, and
those of a higher level bind more tightly. The two loosest tiers are the connectives.
-/

namespace LoxScript

/-- A tier of precedence. -/
inductive Tier where
  /-- The word "or". -/
  | disjunction
  /-- The word "and". -/
  | conjunction
  /-- Equality and inequality. -/
  | equality
  /-- The four comparisons. -/
  | comparison
  /-- Sums and differences. -/
  | term
  /-- Products and quotients. -/
  | factor
deriving DecidableEq, Repr

namespace Tier

/-- How tightly the operators of a tier bind. -/
def level : Tier → Nat
  | disjunction => 1
  | conjunction => 2
  | equality => 3
  | comparison => 4
  | term => 5
  | factor => 6

/-- The tier of an operator between two operands. -/
def of? : TokenKind → Option Tier
  | .orWord => some disjunction
  | .andWord => some conjunction
  | .bangEqual | .equalEqual => some equality
  | .greater | .greaterEqual | .less | .lessEqual => some comparison
  | .minus | .plus => some term
  | .slash | .star => some factor
  | _ => none

/-- Whether the operators of a tier are connectives. -/
def connects : Tier → Bool
  | disjunction | conjunction => true
  | _ => false

/-- The expression that an operator of a tier makes of its operands. -/
def join (tier : Tier) (left : Expr) (op : Token) (right : Expr) : Expr :=
  if tier.connects then .logical left op right op.line else .binary left op right op.line

end Tier

end LoxScript
