import LoxScript.Token.Kind
import LoxScript.Value

/-!
# Tokens

A token is a classified piece of the source together with the value it denotes, if any, and the line
it ends on.
-/

namespace LoxScript

/-- A token: the smallest part of a program that means anything. -/
structure Token where
  kind : TokenKind
  /-- The piece of the source it stands for. -/
  lexeme : String
  /-- The value of a number or a text; `nil` for every other kind. -/
  literal : Value
  /-- The line of its last character. -/
  line : Int
deriving DecidableEq, Inhabited

namespace Token

/-- The mark for the end of the source on a given line. -/
def endAt (line : Int) : Token := ⟨.endMark, "", .nil, line⟩

/-- How an error report points at a token. -/
def location (t : Token) : String :=
  if t.kind = .endMark then " at end" else " at '" ++ t.lexeme ++ "'"

/-- A token as the dump of a program shows it. -/
def inspect (t : Token) : String :=
  "Token(" ++ t.kind.name ++ ", " ++ Text.quoted t.lexeme ++ ", " ++ t.literal.inspect ++
    ", line=" ++ toString t.line ++ ")"

/-- Whether two tokens agree in all parts, where a truth value agrees with the number one or zero. -/
def agrees (a b : Token) : Bool :=
  a.kind == b.kind && a.lexeme == b.lexeme && a.literal.loosely b.literal && a.line == b.line

end Token

end LoxScript
