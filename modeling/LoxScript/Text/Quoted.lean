import LoxScript.Text.Hidden

/-!
# Quoted text

How a text is shown between quotes in a dump. The quote is an apostrophe, unless the text holds an
apostrophe and no quotation mark; then it is a quotation mark. A backslash, the quote in use, the
line feed, the carriage return and the tab are written with a backslash, other characters without a
sign of their own by their number in hexadecimal digits, and all else as it stands.
-/

namespace LoxScript.Text

/-- The apostrophe. -/
def apostrophe : Char := '\x27'

/-- The quotation mark. -/
def quotationMark : Char := '\x22'

/-- The last `width` hexadecimal digits of `n`. -/
def hexDigits : (width n : Nat) → List Char
  | 0, _ => []
  | width + 1, n => hexDigits width (n / 16) ++ [Nat.digitChar (n % 16)]

/-- A character by its number, in two, four or eight digits. -/
def numbered (c : Char) : List Char :=
  let n := c.toNat
  if n ≤ 0xFF then '\\' :: 'x' :: hexDigits 2 n
  else if n ≤ 0xFFFF then '\\' :: 'u' :: hexDigits 4 n
  else '\\' :: 'U' :: hexDigits 8 n

/-- The quote that goes around `cs`. -/
def quoteFor (cs : List Char) : Char :=
  if cs.contains apostrophe && !cs.contains quotationMark then quotationMark else apostrophe

/-- One character as it is written inside the quote `mark`. -/
def escaped (mark c : Char) : List Char :=
  if c == '\\' || c == mark then ['\\', c]
  else if c == '\n' then ['\\', 'n']
  else if c == '\r' then ['\\', 'r']
  else if c == '\t' then ['\\', 't']
  else if isHidden c then numbered c
  else [c]

/-- `cs` between quotes. -/
def quotedChars (cs : List Char) : List Char :=
  let mark := quoteFor cs
  mark :: cs.flatMap (escaped mark) ++ [mark]

/-- `s` between quotes. -/
def quoted (s : String) : String := String.ofList (quotedChars s.toList)

end LoxScript.Text
