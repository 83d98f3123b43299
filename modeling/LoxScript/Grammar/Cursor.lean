import LoxScript.Token.Basic

/-!
# A cursor in a list of tokens

The grammar reads tokens from left to right. A `Cursor` stands between the tokens read so far and
those still to come; reading ends before the first end mark, and what follows that mark is out of
reach. Only the token before the very first position is unusual: it is the last token of the whole
list.
-/

namespace LoxScript

/-- A position in a list of tokens. -/
structure Cursor where
  /-- The tokens read so far, the latest first. -/
  past : List Token
  /-- The tokens to come, up to the end mark. -/
  rest : List Token
  /-- The end mark. -/
  stop : Token
  /-- The last token of the list, which may stand behind the end mark. -/
  last : Token
deriving DecidableEq

/-- Whether a token of this kind starts a statement. -/
def TokenKind.startsStatement : TokenKind → Bool
  | classWord | funWord | varWord | forWord | ifWord | whileWord | printWord | returnWord => true
  | _ => false

namespace Cursor

/-- The token that marks the end of a list without an end mark: it stands on the line of the last
token. -/
def closing (ts : List Token) : Token := Token.endAt ((ts.getLast?.map Token.line).getD 1)

/-- The list with an end mark at its end. -/
def closed (ts : List Token) : List Token :=
  if ts.getLast?.any (·.kind == .endMark) then ts else ts ++ [closing ts]

/-- Whether a token is no end mark. -/
def isProper (t : Token) : Bool := t.kind != .endMark

/-- The cursor at the start of a list. -/
def ofTokens (ts : List Token) : Cursor :=
  let all := closed ts
  { past := []
    rest := all.takeWhile isProper
    stop := (all.find? (!isProper ·)).getD (closing ts)
    last := all.getLast?.getD (closing ts) }

/-- The number of tokens read so far. -/
def position (c : Cursor) : Nat := c.past.length

/-- The token to come: the end mark, once all are read. -/
def current (c : Cursor) : Token := c.rest.head?.getD c.stop

/-- The token read last. -/
def previous (c : Cursor) : Token := c.past.head?.getD c.last

/-- Whether all tokens are read. -/
def atEnd (c : Cursor) : Bool := c.rest.isEmpty

/-- Whether the token to come has one of the given kinds. This never holds at the end. -/
def sees (c : Cursor) (kinds : List TokenKind) : Bool :=
  c.rest.head?.any fun t => kinds.contains t.kind

/-- The cursor behind the token to come. The end mark is never passed. -/
def advance (c : Cursor) : Cursor :=
  match c.rest with
  | [] => c
  | t :: ts => { c with past := t :: c.past, rest := ts }

/-- Passes tokens up to a boundary, given the tokens read and those to come: a boundary is behind a
semicolon, in front of a token that starts a statement, and at the end. -/
def skip : (past rest : List Token) → List Token × List Token
  | past, [] => (past, [])
  | past, t :: ts =>
    if past.head?.any (·.kind == .semicolon) || t.kind.startsStatement then (past, t :: ts)
    else skip (t :: past) ts

/-- The cursor at the next boundary. The token to come is passed in any case. -/
def synchronize (c : Cursor) : Cursor :=
  match c.rest with
  | [] => c
  | t :: ts => { c with past := (skip (t :: c.past) ts).1, rest := (skip (t :: c.past) ts).2 }

end Cursor

end LoxScript
