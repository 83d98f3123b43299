import LoxScript.Grammar.Cursor
import LoxScript.Grammar.SyntaxError

/-!
# Parsing steps

A parsing step reads tokens from a cursor. It ends with a result or with a syntax error that breaks
off the construct being read; an error that breaks off nothing is only noted. The steps of this
module are the ones from which the grammar is built: looking at the token to come, passing it if it
has a certain kind, insisting on a kind, and noting or raising an error.
-/

namespace LoxScript

/-- What a parsing step works on. -/
structure ParseState where
  /-- Where it reads. -/
  cursor : Cursor
  /-- The errors noted so far, in order. -/
  noted : List SyntaxError
  /-- Whether a declaration had to be dropped. -/
  panicked : Bool
deriving DecidableEq

namespace ParseState

/-- The state before anything is read. -/
def ofTokens (ts : List Token) : ParseState := ⟨Cursor.ofTokens ts, [], false⟩

/-- Whether any error was noted. -/
def failed (s : ParseState) : Bool := !s.noted.isEmpty

/-- The state with one more error noted. -/
def note (s : ParseState) (e : SyntaxError) : ParseState := { s with noted := s.noted ++ [e] }

/-- The state behind the token to come. -/
def advance (s : ParseState) : ParseState := { s with cursor := s.cursor.advance }

/-- The state at the next boundary. -/
def synchronize (s : ParseState) : ParseState := { s with cursor := s.cursor.synchronize }

end ParseState

/-- A parsing step. -/
abbrev Parse := EStateM SyntaxError ParseState

namespace Parse

variable {α : Type}

/-- The token to come, if the end is not reached. -/
def look : Parse (Option Token) := fun s => .ok s.cursor.rest.head? s

/-- Breaks off and blames the token to come. -/
def fail (cause : SyntaxCause) : Parse α := fun s => .error ⟨s.cursor.current, cause⟩ s

/-- Notes an error at a token and goes on. -/
def note (e : SyntaxError) : Parse Unit := fun s => .ok () (s.note e)

/-- Passes the token to come and gives the token read last. -/
def advance : Parse Token := fun s => .ok s.advance.cursor.previous s.advance

/-- Passes the token to come and gives it, if it has one of the given kinds. -/
def accept (kinds : List TokenKind) : Parse (Option Token) := fun s =>
  match s.cursor.rest with
  | [] => .ok none s
  | t :: _ => if kinds.contains t.kind then .ok (some t) s.advance else .ok none s

/-- Passes the token to come and gives it, if it has the given kind; otherwise breaks off. -/
def expect (kind : TokenKind) (cause : SyntaxCause) : Parse Token := fun s =>
  match s.cursor.rest with
  | [] => .error ⟨s.cursor.stop, cause⟩ s
  | t :: _ => if t.kind = kind then .ok t s.advance else .error ⟨t, cause⟩ s

/-- The number of tokens to come. -/
def remaining : Parse Nat := fun s => .ok s.cursor.rest.length s

end Parse

end LoxScript
