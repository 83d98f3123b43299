import LoxScript.Grammar.Program
import LoxScript.Machine.Execute

/-!
# Running a source text

A source text is scanned, read as a program, and executed on a machine, which keeps its scopes from
one run to the next. Errors are reported in this order: lexical errors, syntax errors, and at most
one error of the execution. A program of which a declaration had to be dropped is not executed at
all; one with other errors is executed, but its run counts as failed.
-/

namespace LoxScript

/-- What came of a run. -/
structure Report where
  /-- Whether there was no error at all. -/
  ok : Bool
  diagnostics : List Diagnostic
  /-- The machine afterwards; its output is that of this run alone. -/
  machine : Machine

namespace Report

/-- What the run printed. -/
def output (r : Report) : String := r.machine.output

/-- The reports of the errors, one a line. -/
def errorText (r : Report) : String := String.join (r.diagnostics.map (Text.line ·.render))

end Report

/-- The report of an execution that followed the errors `found`; it counts as a success only if
`clean` holds. The breaks that no error of the program explains are handed on. -/
def Report.ofResult (clean : Bool) (found : List Diagnostic) :
    EStateM.Result Halt Machine Unit → Except Halt Report
  | .ok _ m => .ok ⟨clean, found, m⟩
  | .error (.error e) m => .ok ⟨false, found ++ [e.diagnostic], m⟩
  | .error .overflow m => .ok ⟨false, found ++ [overflowDiagnostic m.line], m⟩
  | .error h _ => .error h

/-- Runs a source text on a machine. -/
def run (b : Bounds) (source : String) (m : Machine) : Except Halt Report :=
  let scan := Scan.ofSource source
  let program := Program.ofTokens b.nesting scan.tokens
  let found := scan.diagnostics ++ program.diagnostics
  let start := { m with output := "" }
  if program.panicked then .ok ⟨false, found, start⟩
  else
    Report.ofResult (!(scan.failed || program.failed)) found
      (Stmt.execAll b b.room program.statements start)

/-- Runs source texts one after the other on one machine. -/
def runAll (b : Bounds) : List String → Machine → Except Halt (List Report)
  | [], _ => .ok []
  | source :: sources, m => do
    let report ← run b source m
    let later ← runAll b sources report.machine
    return report :: later

/-- Whether a source text is at fault only because it ends too early: it has no lexical error, and
all of its syntax errors, of which there are some, blame its end. -/
def isIncomplete (b : Bounds) (source : String) : Bool :=
  let scan := Scan.ofSource source
  let program := Program.ofTokens b.nesting scan.tokens
  !scan.failed && program.failed && program.diagnostics.all (·.location == " at end")

end LoxScript
