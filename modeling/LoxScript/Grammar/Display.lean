import LoxScript.Grammar.Tree

/-!
# The bracketed form of programs

Trees are shown in brackets with the operator or keyword in front: `-1 * (x)` is
`(* (- 1) (group x))`. Lines are not shown.

The room that showing a tree takes grows with its depth; `fits` says whether a tree is shallow
enough for a given room.
-/

namespace LoxScript

namespace Expr

/-- The bracketed form of an expression. -/
def display : Expr → String
  | literal v _ => v.display
  | unary op e _ => "(" ++ op.lexeme ++ " " ++ e.display ++ ")"
  | binary l op r _ | logical l op r _ =>
    "(" ++ op.lexeme ++ " " ++ l.display ++ " " ++ r.display ++ ")"
  | grouping e _ => "(group " ++ e.display ++ ")"
  | read name _ => name.lexeme
  | assign name e _ => "(= " ++ name.lexeme ++ " " ++ e.display ++ ")"
  | malformed kind _ => "<expr " ++ kind ++ ">"

/-- Whether the tree has at most `room` levels. -/
def fits : Nat → Expr → Bool
  | 0, _ => false
  | room + 1, unary _ e _ | room + 1, grouping e _ | room + 1, assign _ e _ => e.fits room
  | room + 1, binary l _ r _ | room + 1, logical l _ r _ => l.fits room && r.fits room
  | _ + 1, literal _ _ | _ + 1, read _ _ | _ + 1, malformed _ _ => true

end Expr

namespace Stmt

mutual

/-- The bracketed form of a statement. -/
def display : Stmt → String
  | expression e _ => "(; " ++ e.display ++ ")"
  | print e _ => "(print " ++ e.display ++ ")"
  | declare name none _ => "(var " ++ name.lexeme ++ ")"
  | declare name (some e) _ => "(var " ++ name.lexeme ++ " " ++ e.display ++ ")"
  | block body _ => "(block" ++ displayEach body ++ ")"
  | ifThen c s _ => "(if " ++ c.display ++ " " ++ s.display ++ ")"
  | ifElse c s t _ => "(if " ++ c.display ++ " " ++ s.display ++ " " ++ t.display ++ ")"
  | loop c s _ => "(while " ++ c.display ++ " " ++ s.display ++ ")"
  | malformed kind _ => "<stmt " ++ kind ++ ">"

/-- The bracketed forms of statements, with a blank before each. -/
def displayEach : List Stmt → String
  | [] => ""
  | s :: ss => " " ++ s.display ++ displayEach ss

end

mutual

/-- Whether the tree has at most `room` levels. -/
def fits : Nat → Stmt → Bool
  | 0, _ => false
  | room + 1, expression e _ | room + 1, print e _ | room + 1, declare _ (some e) _ => e.fits room
  | room + 1, block body _ => allFit room body
  | room + 1, ifThen c s _ | room + 1, loop c s _ => c.fits room && s.fits room
  | room + 1, ifElse c s t _ => c.fits room && s.fits room && t.fits room
  | _ + 1, declare _ none _ | _ + 1, malformed _ _ => true

/-- Whether every tree has at most `room` levels. -/
def allFit : Nat → List Stmt → Bool
  | _, [] => true
  | room, s :: ss => s.fits room && allFit room ss

end

end Stmt

end LoxScript
