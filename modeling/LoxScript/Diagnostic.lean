/-!
# Diagnostics

One report of an error: the line it is on, a mark that says where on the line, and what is wrong.
-/

namespace LoxScript

/-- A report of one error. -/
structure Diagnostic where
  line : Int
  /-- Where on the line: empty, or a phrase that begins with a blank. -/
  location : String
  message : String
deriving DecidableEq, Repr, Inhabited

/-- The line that reports the error to the user. -/
def Diagnostic.render (d : Diagnostic) : String :=
  "[line " ++ toString d.line ++ "] Error" ++ d.location ++ ": " ++ d.message

end LoxScript
