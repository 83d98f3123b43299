import LoxScript.Grammar.Sentence
import LoxScript.Lexeme.Scan

/-!
# The grammar of programs

A program is a list of declarations. A declaration that cannot be read is dropped: its error is
noted, and reading goes on behind the next boundary, so that one pass finds several errors. Reading
a program never fails as a whole.
-/

namespace LoxScript

namespace ParseState

/-- The state in which reading goes on after the error `e` has broken off a declaration. -/
def recover (s : ParseState) (e : SyntaxError) : ParseState :=
  { (s.note e).synchronize with panicked := true }

end ParseState

namespace Parse

/-- Declarations up to the end, `fuel` at most; those that cannot be read are dropped. -/
def programOf (declaration : Parse Stmt) : (fuel : Nat) → ParseState → List Stmt × ParseState
  | 0, s => ([], s)
  | fuel + 1, s =>
    if s.cursor.atEnd then ([], s)
    else
      match declaration s with
      | .ok d s =>
        let (ds, s) := programOf declaration fuel s
        (d :: ds, s)
      | .error e s => programOf declaration fuel (s.recover e)

/-- The declarations up to the end. -/
def program (room : Nat) (s : ParseState) : List Stmt × ParseState :=
  programOf (declaration room) s.cursor.rest.length s

end Parse

/-- The result of reading a program. -/
structure Program where
  /-- The statements that could be read. -/
  statements : List Stmt
  /-- The errors in order. -/
  errors : List SyntaxError
  /-- Whether a declaration was dropped. -/
  panicked : Bool
  /-- The position at the end. -/
  position : Nat

namespace Program

/-- Reads a list of tokens as a program. -/
def ofTokens (room : Nat) (ts : List Token) : Program :=
  let (statements, s) := Parse.program room (.ofTokens ts)
  ⟨statements, s.noted, s.panicked, s.cursor.position⟩

/-- Whether any error was noted. -/
def failed (p : Program) : Bool := !p.errors.isEmpty

/-- The reports of the errors in order. -/
def diagnostics (p : Program) : List Diagnostic := p.errors.map SyntaxError.diagnostic

end Program

end LoxScript
