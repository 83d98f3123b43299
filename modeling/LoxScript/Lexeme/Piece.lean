import LoxScript.Decimal.Numeral
import LoxScript.Token.Basic
import LoxScript.Text.Lines

/-!
# Pieces of a source text

A source text is cut into consecutive pieces, each of them the longest one that can start where the
previous one ended: a line feed, a run of blanks, a comment, a text between quotation marks, a
numeral, a word, or an operator. Where none of these can start, the piece is a single stray
character, or, behind a quotation mark that is never closed, all that is left.

Nothing is lost: `flatMap_chars_pieces` says that the pieces in order make up the source.
-/

namespace LoxScript

/-- A piece of a source text. -/
inductive Piece where
  /-- A line feed. -/
  | newline
  /-- A run of blanks, tabs and carriage returns. -/
  | blanks (run : List Char)
  /-- A comment, without its two slashes; it ends before the line feed. -/
  | comment (body : List Char)
  /-- A text, without its quotation marks. -/
  | text (inner : List Char)
  /-- A quotation mark that is never closed, and what follows it. -/
  | openText (inner : List Char)
  /-- A numeral: its digits before the point, and those after it, if it has a point. -/
  | numeral (whole fraction : List Char)
  /-- A name or a reserved word. -/
  | word (letters : List Char)
  /-- An operator or a punctuation mark. -/
  | sign (chars : List Char) (kind : TokenKind)
  /-- A character that starts no other piece. -/
  | stray (c : Char)
deriving DecidableEq, Repr

/-- Whether `c` separates tokens within a line. -/
def isGap (c : Char) : Bool := c == ' ' || c == '\r' || c == '\t'

/-- Whether `c` can start a word. -/
def isLetter (c : Char) : Bool := ('A' ≤ c && c ≤ 'Z') || ('a' ≤ c && c ≤ 'z') || c == '_'

/-- Whether `c` can continue a word. -/
def isWordChar (c : Char) : Bool := isLetter c || Decimal.isDigit c

/-- Whether `c` can stand inside a text. -/
def isInner (c : Char) : Bool := c != Text.quotationMark

/-- Whether `c` can stand inside a comment. -/
def isRemark (c : Char) : Bool := c != '\n'

/-- The kind of an operator of one character. -/
def signKind? : Char → Option TokenKind
  | '(' => some .leftParen
  | ')' => some .rightParen
  | '{' => some .leftBrace
  | '}' => some .rightBrace
  | ',' => some .comma
  | '.' => some .dot
  | '-' => some .minus
  | '+' => some .plus
  | ';' => some .semicolon
  | '/' => some .slash
  | '*' => some .star
  | '!' => some .bang
  | '=' => some .equal
  | '>' => some .greater
  | '<' => some .less
  | _ => none

/-- The kind of an operator that consists of the given character and an equals sign. -/
def signEqualKind? : Char → Option TokenKind
  | '!' => some .bangEqual
  | '=' => some .equalEqual
  | '>' => some .greaterEqual
  | '<' => some .lessEqual
  | _ => none

namespace Piece

/-- The characters of a piece. -/
def chars : Piece → List Char
  | newline => ['\n']
  | blanks run => run
  | comment body => '/' :: '/' :: body
  | text inner => Text.quotationMark :: inner ++ [Text.quotationMark]
  | openText inner => Text.quotationMark :: inner
  | numeral whole [] => whole
  | numeral whole (d :: ds) => whole ++ '.' :: d :: ds
  | word letters => letters
  | sign chars _ => chars
  | stray c => [c]

/-- The text or unclosed text that follows a quotation mark, and what is left. -/
def afterQuote (rest : List Char) : Piece × List Char :=
  match rest.dropWhile isInner with
  | [] => (openText (rest.takeWhile isInner), [])
  | _ :: left => (text (rest.takeWhile isInner), left)

/-- The numeral that starts with the digit `c`, and what is left. A point belongs to it only if a
digit follows. -/
def afterDigit (c : Char) (rest : List Char) : Piece × List Char :=
  let whole := c :: rest.takeWhile Decimal.isDigit
  match rest.dropWhile Decimal.isDigit with
  | '.' :: d :: left =>
    if Decimal.isDigit d then
      (numeral whole (d :: left.takeWhile Decimal.isDigit), left.dropWhile Decimal.isDigit)
    else (numeral whole [], '.' :: d :: left)
  | left => (numeral whole [], left)

/-- The one-character operator or stray character `c`. -/
def single (c : Char) : Piece :=
  match signKind? c with
  | some kind => sign [c] kind
  | none => stray c

/-- The comment, operator or stray character that starts with `c`, and what is left. -/
def afterSign (c : Char) : List Char → Piece × List Char
  | [] => (single c, [])
  | d :: left =>
    if c = '/' ∧ d = '/' then (comment (left.takeWhile isRemark), left.dropWhile isRemark)
    else if d = '=' then
      match signEqualKind? c with
      | some kind => (sign [c, d] kind, left)
      | none => (single c, d :: left)
    else (single c, d :: left)

/-- The longest piece at the start of `c :: rest`, and what is left. -/
def first (c : Char) (rest : List Char) : Piece × List Char :=
  if c = '\n' then (newline, rest)
  else if isGap c then (blanks (c :: rest.takeWhile isGap), rest.dropWhile isGap)
  else if c = Text.quotationMark then afterQuote rest
  else if Decimal.isDigit c then afterDigit c rest
  else if isLetter c then (word (c :: rest.takeWhile isWordChar), rest.dropWhile isWordChar)
  else afterSign c rest

/-! ## A piece and what is left make up the text -/

/-- A text and what is left make up what there was. -/
theorem afterQuote_chars (rest : List Char) :
    (afterQuote rest).1.chars ++ (afterQuote rest).2 = Text.quotationMark :: rest := by
  have split := List.takeWhile_append_dropWhile (p := isInner) (l := rest)
  unfold afterQuote
  split
  · next h => simp_all [chars]
  · next q left h =>
    have hq : q = Text.quotationMark := by
      have := List.head?_dropWhile_not isInner rest
      simp_all [isInner]
    simp_all [chars]

theorem afterDigit_chars (c : Char) (rest : List Char) :
    (afterDigit c rest).1.chars ++ (afterDigit c rest).2 = c :: rest := by
  have split := List.takeWhile_append_dropWhile (p := Decimal.isDigit) (l := rest)
  unfold afterDigit
  split
  · next d left h =>
    split
    · simp [chars, List.takeWhile_append_dropWhile, ← h, split]
    · simp [chars, ← h, split]
  · next h => simp [chars, split]

@[simp] theorem single_chars (c : Char) : (single c).chars = [c] := by
  unfold single; split <;> rfl

/-- An operator or comment and what is left make up what there was. -/
theorem afterSign_chars (c : Char) (rest : List Char) :
    (afterSign c rest).1.chars ++ (afterSign c rest).2 = c :: rest := by
  unfold afterSign
  split
  · simp
  · split
    · simp_all [chars, List.takeWhile_append_dropWhile]
    · split
      · split
        · rfl
        · simp
      · simp

/-- The first piece and what is left make up the text. -/
theorem first_chars (c : Char) (rest : List Char) :
    (first c rest).1.chars ++ (first c rest).2 = c :: rest := by
  unfold first
  split
  · simp_all [chars]
  split
  · simp [chars, List.takeWhile_append_dropWhile]
  split
  · next h => rw [h]; exact afterQuote_chars rest
  split
  · exact afterDigit_chars c rest
  split
  · simp [chars, List.takeWhile_append_dropWhile]
  · exact afterSign_chars c rest

theorem afterSign_chars_ne_nil (c : Char) (rest : List Char) :
    (afterSign c rest).1.chars ≠ [] := by
  unfold afterSign
  split
  · simp
  · split
    · simp [chars]
    · split
      · split
        · simp [chars]
        · simp
      · simp

/-- No piece is empty. -/
theorem first_chars_ne_nil (c : Char) (rest : List Char) : (first c rest).1.chars ≠ [] := by
  unfold first
  split
  · simp [chars]
  split
  · simp [chars]
  split
  · unfold afterQuote; split <;> simp [chars]
  split
  · unfold afterDigit; repeat' split
    all_goals simp [chars]
  split
  · simp [chars]
  · exact afterSign_chars_ne_nil c rest

/-- So the rest is shorter than the text, and cutting comes to an end. -/
theorem length_first_lt (c : Char) (rest : List Char) :
    (first c rest).2.length < (c :: rest).length := by
  have total := congrArg List.length (first_chars c rest)
  have some := List.length_pos_iff.2 (first_chars_ne_nil c rest)
  simp only [List.length_append] at total
  omega

end Piece

/-- The pieces of a source text. -/
def pieces : List Char → List Piece
  | [] => []
  | c :: rest => (Piece.first c rest).1 :: pieces (Piece.first c rest).2
termination_by cs => cs.length
decreasing_by exact Piece.length_first_lt c rest

/-- The pieces in order make up the source. -/
theorem flatMap_chars_pieces (cs : List Char) : (pieces cs).flatMap Piece.chars = cs := by
  fun_induction pieces cs with
  | case1 => rfl
  | case2 c rest ih => simp [ih, Piece.first_chars]

end LoxScript
