import LoxScript.Diagnostic
import LoxScript.Token.Basic

/-!
# Syntax errors

What the grammar can find wrong with a list of tokens. An error blames one token; its wording names
what was expected there and, where that helps, the construct after which it was expected.
-/

namespace LoxScript

/-- The constructs after which a parenthesis or a semicolon is expected. -/
inductive Construct where
  | whileWord | expression | ifWord | condition | forWord | forClauses | value | declaration
  | loopCondition
deriving DecidableEq, Repr

/-- The phrase for a construct. -/
def Construct.phrase : Construct → String
  | whileWord => "'while'"
  | expression => "expression"
  | ifWord => "'if'"
  | condition => "condition"
  | forWord => "'for'"
  | forClauses => "for clauses"
  | value => "value"
  | declaration => "declaration"
  | loopCondition => "loop condition"

/-- All constructs. -/
def Construct.all : List Construct :=
  [whileWord, expression, ifWord, condition, forWord, forClauses, value, declaration, loopCondition]

/-- The construct of a given phrase. -/
def Construct.ofPhrase? (s : String) : Option Construct := all.find? (·.phrase == s)

/-- What can be wrong at a token. -/
inductive SyntaxCause where
  /-- An opening parenthesis is missing. -/
  | expectLeftParen (after : Construct)
  /-- A closing parenthesis is missing. -/
  | expectRightParen (after : Construct)
  /-- A semicolon is missing. -/
  | expectSemicolon (after : Construct)
  /-- The token starts no expression. -/
  | expectExpression
  /-- A block is not closed. -/
  | expectBlockEnd
  /-- A declaration has no name. -/
  | expectName
  /-- The left side of an assignment is no variable. -/
  | invalidTarget
  /-- The constructs around the token are nested too deeply. -/
  | tooDeep
deriving DecidableEq, Repr

/-- The wording of an error. -/
def SyntaxCause.message : SyntaxCause → String
  | expectLeftParen after => "Expect '(' after " ++ after.phrase ++ "."
  | expectRightParen after => "Expect ')' after " ++ after.phrase ++ "."
  | expectSemicolon after => "Expect ';' after " ++ after.phrase ++ "."
  | expectExpression => "Expect expression."
  | expectBlockEnd => "Expect '\x7d' after block."
  | expectName => "Expect variable name."
  | invalidTarget => "Invalid assignment target."
  | tooDeep => "Too deeply nested."

/-- A syntax error. -/
structure SyntaxError where
  /-- The token that is blamed. -/
  token : Token
  /-- What is wrong. -/
  cause : SyntaxCause
deriving DecidableEq

/-- The report of a syntax error. -/
def SyntaxError.diagnostic (e : SyntaxError) : Diagnostic :=
  ⟨e.token.line, e.token.location, e.cause.message⟩

end LoxScript
