import LoxScript.Diagnostic
import LoxScript.Lexeme.Piece

/-!
# Scanning a source text

Scanning turns the pieces of a source into tokens and reports the pieces that are no tokens: every
stray character, and a text that is never closed. It goes on after an error, so that all of them
are found, and always ends with the end mark.

Whatever a piece yields carries the line on which the piece ends.
-/

namespace LoxScript

/-- What can be wrong with a piece of a source. -/
inductive LexicalCause where
  /-- The character starts no token. -/
  | strayCharacter (c : String)
  /-- A text is not closed. -/
  | openText
deriving DecidableEq, Repr

/-- A lexical error. -/
structure LexicalError where
  cause : LexicalCause
  line : Int
deriving DecidableEq, Repr

/-- The wording of a lexical error. -/
def LexicalCause.message : LexicalCause → String
  | strayCharacter _ => "Unexpected character."
  | openText => "Unterminated string."

/-- The report of a lexical error. It has a line only. -/
def LexicalError.diagnostic (e : LexicalError) : Diagnostic := ⟨e.line, "", e.cause.message⟩

namespace Piece

/-- The token that a piece ending on the given line stands for, if any. -/
def token? (line : Int) : Piece → Option Token
  | text inner =>
    some ⟨.text, String.ofList (text inner).chars, .text (String.ofList inner), line⟩
  | numeral whole fraction =>
    some ⟨.number, String.ofList (numeral whole fraction).chars,
      .number (Decimal.ofDigits whole fraction), line⟩
  | word letters =>
    let name := String.ofList letters
    some ⟨(TokenKind.ofWord? name).getD .identifier, name, .nil, line⟩
  | sign chars kind => some ⟨kind, String.ofList chars, .nil, line⟩
  | _ => none

/-- What is wrong with a piece ending on the given line, if anything. -/
def error? (line : Int) : Piece → Option LexicalError
  | openText _ => some ⟨.openText, line⟩
  | stray c => some ⟨.strayCharacter (String.singleton c), line⟩
  | _ => none

end Piece

/-- The result of scanning. -/
structure Scan where
  /-- The tokens in order; the last one is the end mark. -/
  tokens : List Token
  errors : List LexicalError
deriving DecidableEq

namespace Scan

/-- Scans pieces of which the first starts on the given line. -/
def ofPieces (line : Int) : List Piece → Scan
  | [] => ⟨[Token.endAt line], []⟩
  | p :: ps =>
    let last := line + Text.newlines p.chars
    let later := ofPieces last ps
    ⟨(p.token? last).toList ++ later.tokens, (p.error? last).toList ++ later.errors⟩

/-- Scans a source text. Its first line is line one. -/
def ofSource (source : String) : Scan := ofPieces 1 (pieces source.toList)

/-- Whether there is any error. -/
def failed (s : Scan) : Bool := !s.errors.isEmpty

/-- The reports of the errors in order. -/
def diagnostics (s : Scan) : List Diagnostic := s.errors.map LexicalError.diagnostic

end Scan

end LoxScript
