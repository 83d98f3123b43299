/-!
# Lines of a text

Line ends are written in three ways in files. `unified` brings a text to the form in which every
line ends with a line feed, the only one that the language counts.
-/

namespace LoxScript.Text

/-- The number of line feeds in `cs`. -/
def newlines (cs : List Char) : Nat := cs.count '\n'

@[simp] theorem newlines_nil : newlines [] = 0 := rfl

@[simp] theorem newlines_append (as bs : List Char) :
    newlines (as ++ bs) = newlines as + newlines bs := by
  simp [newlines]

/-- The text with every carriage return, and every carriage return followed by a line feed, written
as one line feed. -/
def unified : List Char → List Char
  | [] => []
  | '\r' :: '\n' :: rest => '\n' :: unified rest
  | '\r' :: rest => '\n' :: unified rest
  | c :: rest => c :: unified rest

/-- The lines of `ls` with a line feed between two neighbours. -/
def joinLines (ls : List String) : String := "\n".intercalate ls

/-- `s` followed by a line feed. -/
def line (s : String) : String := s ++ "\n"

end LoxScript.Text
