import LoxScript.Grammar.Phrase

/-!
# The grammar of statements

Declarations, blocks, conditionals, loops and simple statements. An "else" belongs to the nearest
"if" that can take it, because a body is read to its end first. A "for" loop has no node of its own:
`Stmt.forLoop` puts it together from a block and a "while" loop.
-/

namespace LoxScript

/-- The parts of a "for" loop between its parentheses. -/
structure ForClauses where
  /-- What runs once before the loop. -/
  first : Option Stmt
  /-- The condition; without one the loop goes on for ever. -/
  condition : Option Expr
  /-- What is evaluated after each turn. -/
  step : Option Expr

/-- A "for" loop on a given line: the step is put behind the body in a block, the loop behind the
first clause in another one, and no block is made for a clause that is absent. -/
def Stmt.forLoop (line : Int) (clauses : ForClauses) (body : Stmt) : Stmt :=
  let turn :=
    match clauses.step with
    | some e => .block [body, .expression e e.line] line
    | none => body
  let whole := .loop (clauses.condition.getD (.literal (.bool true) line)) turn line
  match clauses.first with
  | some s => .block [s, whole] line
  | none => whole

namespace Parse

/-- An expression and a semicolon. -/
def expressionStatement (value : Parse Expr) : Parse Stmt := do
  let e ← value
  let _ ← expect .semicolon (.expectSemicolon .expression)
  return .expression e e.line

/-- The rest of a "print" statement on a given line. -/
def printStatement (value : Parse Expr) (line : Int) : Parse Stmt := do
  let e ← value
  let _ ← expect .semicolon (.expectSemicolon .value)
  return .print e line

/-- The rest of a variable declaration. -/
def variableDeclaration (value : Parse Expr) : Parse Stmt := do
  let name ← expect .identifier .expectName
  let first ← do
    match ← accept [.equal] with
    | some _ =>
      let e ← value
      pure (some e)
    | none => pure none
  let _ ← expect .semicolon (.expectSemicolon .declaration)
  return .declare name first name.line

/-- A variable declaration or a statement. -/
def declarationOf (value : Parse Expr) (statement : Parse Stmt) : Parse Stmt := do
  match ← accept [.varWord] with
  | some _ => variableDeclaration value
  | none => statement

/-- Declarations up to a closing brace or the end, `fuel` at most. -/
def declarations (declaration : Parse Stmt) : (fuel : Nat) → Parse (List Stmt)
  | 0 => return []
  | fuel + 1 => do
    match ← look with
    | none => return []
    | some t =>
      if t.kind = .rightBrace then return []
      else
        let s ← declaration
        let later ← declarations declaration fuel
        return s :: later

/-- The rest of a block. -/
def blockOf (declaration : Parse Stmt) : Parse (List Stmt) := do
  let body ← declarations declaration (← remaining)
  let _ ← expect .rightBrace .expectBlockEnd
  return body

/-- The rest of a conditional on a given line. -/
def conditional (value : Parse Expr) (statement : Parse Stmt) (line : Int) : Parse Stmt := do
  let _ ← expect .leftParen (.expectLeftParen .ifWord)
  let condition ← value
  let _ ← expect .rightParen (.expectRightParen .condition)
  let body ← statement
  match ← accept [.elseWord] with
  | some _ =>
    let other ← statement
    return .ifElse condition body other line
  | none => return .ifThen condition body line

/-- The rest of a "while" loop on a given line. -/
def whileLoop (value : Parse Expr) (statement : Parse Stmt) (line : Int) : Parse Stmt := do
  let _ ← expect .leftParen (.expectLeftParen .whileWord)
  let condition ← value
  let _ ← expect .rightParen (.expectRightParen .condition)
  let body ← statement
  return .loop condition body line

/-- The first clause of a "for" loop, with its semicolon. -/
def firstClause (value : Parse Expr) : Parse (Option Stmt) := do
  match ← accept [.semicolon] with
  | some _ => return none
  | none =>
    match ← accept [.varWord] with
    | some _ =>
      let s ← variableDeclaration value
      return some s
    | none =>
      let s ← expressionStatement value
      return some s

/-- An expression, unless the token to come has the given kind. -/
def optional (value : Parse Expr) (kind : TokenKind) : Parse (Option Expr) := do
  match ← look with
  | some t =>
    if t.kind = kind then return none
    else
      let e ← value
      return some e
  | none =>
    let e ← value
    return some e

/-- The clauses of a "for" loop with their parentheses. -/
def forClauses (value : Parse Expr) : Parse ForClauses := do
  let _ ← expect .leftParen (.expectLeftParen .forWord)
  let first ← firstClause value
  let condition ← optional value .semicolon
  let _ ← expect .semicolon (.expectSemicolon .loopCondition)
  let step ← optional value .rightParen
  let _ ← expect .rightParen (.expectRightParen .forClauses)
  return ⟨first, condition, step⟩

/-- The rest of a "for" loop on a given line. -/
def forLoop (value : Parse Expr) (statement : Parse Stmt) (line : Int) : Parse Stmt := do
  let clauses ← forClauses value
  let body ← statement
  return .forLoop line clauses body

/-- A statement, given how its parts are read. -/
def statementOf (value : Parse Expr) (nested : Parse Stmt) : Parse Stmt := do
  match ← accept [.forWord, .ifWord, .printWord, .whileWord, .leftBrace] with
  | none => expressionStatement value
  | some t =>
    match t.kind with
    | .forWord => forLoop value nested t.line
    | .ifWord => conditional value nested t.line
    | .printWord => printStatement value t.line
    | .whileWord => whileLoop value nested t.line
    | _ =>
      let body ← blockOf (declarationOf value nested)
      return .block body t.line

/-- A statement. Each statement that is part of another one takes some room. -/
def statement : (room : Nat) → Parse Stmt
  | 0 => fail .tooDeep
  | room + 1 => statementOf (expression room) (statement room)

/-- A declaration. -/
def declaration (room : Nat) : Parse Stmt := declarationOf (expression room) (statement room)

end Parse

end LoxScript
