import LoxScript.Command
import LoxScript.Proofs.Grammar.Blame
import LoxScript.Proofs.Machine.Endings
import LoxScript.Proofs.Run.Clean
import LoxScript.Proofs.Run.Stages

/-!
# The verdict of a run

Whether a run succeeds is computed from what each phase says of itself: whether scanning failed,
whether an error was noted while reading, whether a declaration was dropped, and how the execution
ended. What is reported is collected on the way. That the two agree follows from the flags that the
phases set (`Report.ok_iff`). This module adds what is reported: it lists the faults of a program phase
by phase (`Scan.faults`) and shows that a run reports exactly these, in this order (`Scan.run_of_ends`).
The exit code of the command and what it writes to the error output follow.
-/

namespace LoxScript

/-! ## Faults -/

/-- What can be wrong with a program, phase by phase. -/
inductive Fault where
  | lexical (e : LexicalError)
  | syntactic (e : SyntaxError)
  | runtime (e : RuntimeError)
  /-- The stack was exhausted behind the start of the statement on the given line. -/
  | overflow (line : Int)
deriving DecidableEq

namespace Fault

/-- How a fault is reported. -/
def diagnostic : Fault → Diagnostic
  | lexical e => e.diagnostic
  | syntactic e => e.diagnostic
  | runtime e => e.diagnostic
  | overflow line => overflowDiagnostic line

/-- The fault comes up only when the program is executed. -/
def Late : Fault → Prop
  | runtime _ | overflow _ => True
  | lexical _ | syntactic _ => False

end Fault

/-- The fault that breaks off an execution, if it is one of the program. -/
def Halt.fault? (line : Int) : Halt → Option Fault
  | error e => some (.runtime e)
  | overflow => some (.overflow line)
  | _ => none

theorem Halt.late_of_fault? {line : Int} {h : Halt} {f : Fault} (hf : h.fault? line = some f) :
    f.Late := by
  cases h <;> cases hf <;> trivial

theorem Halt.exists_fault_of_ordinary {h : Halt} (hh : h.Ordinary) (line : Int) :
    ∃ f, h.fault? line = some f := by
  rcases hh with ⟨e, rfl⟩ | rfl
  · exact ⟨.runtime e, rfl⟩
  · exact ⟨.overflow line, rfl⟩

/-- A fault of the program that breaks off the execution is reported behind the others. -/
theorem Report.ofResult_of_fault {clean : Bool} {found : List Diagnostic} {h : Halt} {m : Machine}
    {f : Fault} (hf : h.fault? m.line = some f) :
    ofResult clean found (.error h m) = .ok ⟨false, found ++ [f.diagnostic], m⟩ := by
  cases h <;> cases hf <;> rfl

/-! ## The faults of a scanned program -/

namespace Scan

variable {b : Bounds} {scan : Scan} {m : Machine}

/-- What the tokens are read as. -/
def program (b : Bounds) (scan : Scan) : Program := .ofTokens b.nesting scan.tokens

/-- What comes of executing the statements that were read. -/
def outcome (b : Bounds) (scan : Scan) (m : Machine) : EStateM.Result Halt Machine Unit :=
  Stmt.execAll b b.room (scan.program b).statements { m with output := "" }

/-- The fault that breaks off the execution. If a declaration was dropped, nothing is executed. -/
def last (b : Bounds) (scan : Scan) (m : Machine) : Option Fault :=
  if (scan.program b).panicked then none
  else
    match scan.outcome b m with
    | .ok _ _ => none
    | .error h m => h.fault? m.line

/-- All faults, in the order of the phases. -/
def faults (b : Bounds) (scan : Scan) (m : Machine) : List Fault :=
  scan.errors.map Fault.lexical ++ (scan.program b).errors.map Fault.syntactic ++
    (scan.last b m).toList

/-- The machine behind the execution. -/
def finish (b : Bounds) (scan : Scan) (m : Machine) : Machine :=
  if (scan.program b).panicked then { m with output := "" } else endState (scan.outcome b m)

/-- Runs a program that was scanned. -/
def run (b : Bounds) (scan : Scan) (m : Machine) : Except Halt Report :=
  let found := scan.diagnostics ++ (scan.program b).diagnostics
  if (scan.program b).panicked then .ok ⟨false, found, { m with output := "" }⟩
  else Report.ofResult (!(scan.failed || (scan.program b).failed)) found (scan.outcome b m)

/-- To run a source is to run what it is scanned as. -/
theorem run_ofSource (b : Bounds) (source : String) (m : Machine) :
    (ofSource source).run b m = LoxScript.run b source m := rfl

/-- The program is executed, and one of its loops goes on when its turns are used up. -/
def Unfinished (b : Bounds) (scan : Scan) (m : Machine) : Prop :=
  (scan.program b).panicked = false ∧ ∃ m', scan.outcome b m = .error .unfinished m'

theorem diagnostics_eq (scan : Scan) :
    scan.diagnostics = (scan.errors.map Fault.lexical).map Fault.diagnostic := by
  simp [diagnostics, Fault.diagnostic, Function.comp_def]

theorem program_diagnostics_eq (b : Bounds) (scan : Scan) :
    (scan.program b).diagnostics =
      ((scan.program b).errors.map Fault.syntactic).map Fault.diagnostic := by
  simp [Program.diagnostics, Fault.diagnostic, Function.comp_def]

theorem map_faults (b : Bounds) (scan : Scan) (m : Machine) :
    (scan.faults b m).map Fault.diagnostic =
      scan.diagnostics ++ (scan.program b).diagnostics ++
        (scan.last b m).toList.map Fault.diagnostic := by
  rw [faults, List.map_append, List.map_append, ← diagnostics_eq, ← program_diagnostics_eq]

/-- If the execution adds no fault, the errors that were found before it are all. -/
theorem isEmpty_faults_of_none (hlast : scan.last b m = none) :
    (scan.faults b m).isEmpty = !(scan.failed || (scan.program b).failed) := by
  rw [faults, hlast, failed, Program.failed]
  cases scan.errors <;> simp

theorem isEmpty_faults_of_some {f : Fault} (hlast : scan.last b m = some f) :
    (scan.faults b m).isEmpty = false := by
  simp [faults, hlast]

/-- Where a declaration was dropped, nothing is executed. -/
theorem run_of_dropped (hpanicked : (scan.program b).panicked = true) :
    scan.run b m =
      .ok ⟨(scan.faults b m).isEmpty, (scan.faults b m).map Fault.diagnostic, scan.finish b m⟩ := by
  have hfailed : (scan.program b).failed = true := by
    by_contra hclean
    have herrors : (scan.program b).errors = [] := by simpa [Program.failed] using hclean
    have hkept : (scan.program b).panicked = false := Program.panicked_of_errors herrors
    rw [hpanicked] at hkept
    cases hkept
  have hlast : scan.last b m = none := if_pos hpanicked
  have hfinish : scan.finish b m = { m with output := "" } := if_pos hpanicked
  rw [map_faults, isEmpty_faults_of_none hlast, hlast, hfailed, hfinish, Bool.or_true,
    Option.toList_none, List.map_nil, List.append_nil]
  exact if_pos hpanicked

theorem run_of_kept (hkept : (scan.program b).panicked = false) :
    scan.run b m = Report.ofResult (!(scan.failed || (scan.program b).failed))
      (scan.diagnostics ++ (scan.program b).diagnostics) (scan.outcome b m) :=
  if_neg (by simp [hkept])

/-- A run that ends reports all faults, in the order of the phases, and nothing else. It succeeds
exactly if there are none. -/
theorem run_of_ends (hends : ¬ scan.Unfinished b m) :
    scan.run b m =
      .ok ⟨(scan.faults b m).isEmpty, (scan.faults b m).map Fault.diagnostic, scan.finish b m⟩ := by
  by_cases hpanicked : (scan.program b).panicked = true
  · exact run_of_dropped hpanicked
  · have hkept := eq_false_of_ne_true hpanicked
    have hfinish : scan.finish b m = endState (scan.outcome b m) := if_neg hpanicked
    have hlast : scan.last b m =
        match scan.outcome b m with
        | .ok _ _ => none
        | .error h m => h.fault? m.line := if_neg hpanicked
    rw [run_of_kept hkept, map_faults, hfinish]
    cases houtcome : scan.outcome b m with
    | ok u m' =>
      rw [houtcome] at hlast
      rw [isEmpty_faults_of_none hlast, hlast, Option.toList_none, List.map_nil, List.append_nil]
      rfl
    | error h m' =>
      rw [houtcome] at hlast
      have hbuilt := wellBuiltAll_ofTokens b.nesting scan.tokens
      rcases breaks_execAll b b.room _ hbuilt _ h m' houtcome with hordinary | rfl
      · obtain ⟨f, hf⟩ := h.exists_fault_of_ordinary hordinary m'.line
        have hsome : scan.last b m = some f := hlast.trans hf
        rw [Report.ofResult_of_fault hf, isEmpty_faults_of_some hsome, hsome]
        rfl
      · exact absurd ⟨hkept, m', houtcome⟩ hends

theorem run_of_unfinished (h : scan.Unfinished b m) : scan.run b m = .error .unfinished := by
  obtain ⟨hkept, m', houtcome⟩ := h
  rw [run_of_kept hkept, houtcome]
  rfl

end Scan

/-! ## The verdict -/

/-- What the report of a run says of the source: the run succeeds exactly if nothing is reported; the
lexical errors are reported first, then the syntax errors, and last a fault of the execution, if no
declaration was dropped and there is one; and if a declaration was dropped, then nothing was printed,
and the scopes and the line of the machine are what they were. -/
structure Report.Judges (b : Bounds) (source : String) (m : Machine) (r : Report) : Prop where
  ok_iff : r.ok = true ↔ r.diagnostics = []
  order : ∃ late : Option Fault,
    r.diagnostics =
        ((Scan.ofSource source).errors.map Fault.lexical ++
          (Program.ofTokens b.nesting (Scan.ofSource source).tokens).errors.map Fault.syntactic ++
          late.toList).map Fault.diagnostic ∧
      ∀ f, late = some f →
        f.Late ∧ Program.firstBreak b.nesting (Scan.ofSource source).tokens = none
  dropped : Program.firstBreak b.nesting (Scan.ofSource source).tokens ≠ none →
    r.output = "" ∧ r.machine.chain = m.chain ∧ r.machine.line = m.line

theorem Program.firstBreak_eq_none {nesting : Nat} {ts : List Token} :
    firstBreak nesting ts = none ↔ (ofTokens nesting ts).panicked = false := by
  rw [← isSome_firstBreak, Option.isSome_eq_false_iff, Option.isNone_iff_eq_none]

/-- Only what is executed has a late fault. -/
theorem Scan.late_of_last {b : Bounds} {scan : Scan} {m : Machine} {f : Fault}
    (h : scan.last b m = some f) : f.Late ∧ (scan.program b).panicked = false := by
  unfold Scan.last at h
  split at h
  · cases h
  · next hpanicked =>
    refine ⟨?_, eq_false_of_ne_true hpanicked⟩
    split at h
    · cases h
    · exact Halt.late_of_fault? h

/-- The report of a run judges the source, unless a loop of the source goes on for too long. -/
theorem run_judges (b : Bounds) (source : String) (m : Machine) :
    (∃ r, run b source m = .ok r ∧ r.Judges b source m) ∨
      run b source m = .error .unfinished ∧ (Scan.ofSource source).Unfinished b m := by
  rw [← Scan.run_ofSource]
  by_cases hends : (Scan.ofSource source).Unfinished b m
  · exact .inr ⟨Scan.run_of_unfinished hends, hends⟩
  · have hrun := Scan.run_of_ends hends
    refine .inl ⟨_, hrun, Report.ok_iff (by rwa [← Scan.run_ofSource]),
      ⟨(Scan.ofSource source).last b m, rfl, fun f hf => ?_⟩, fun hdropped => ?_⟩
    · obtain ⟨hlate, hkept⟩ := Scan.late_of_last hf
      exact ⟨hlate, Program.firstBreak_eq_none.mpr hkept⟩
    · have hpanicked : ((Scan.ofSource source).program b).panicked = true := by
        rw [ne_eq, Program.firstBreak_eq_none] at hdropped
        exact eq_true_of_ne_false hdropped
      have hfinish : (Scan.ofSource source).finish b m = { m with output := "" } :=
        if_pos hpanicked
      simp only [Report.output, hfinish, and_self]

/-- The error output is empty exactly if nothing is reported. -/
theorem Report.errorText_eq_empty {r : Report} : r.errorText = "" ↔ r.diagnostics = [] := by
  have hline : ∀ s, Text.line s ≠ "" := by
    intro s hs
    have hlength := congrArg String.length hs
    simp [Text.line] at hlength
  unfold errorText
  cases r.diagnostics with
  | nil => simp
  | cons d ds => simp [hline]

/-- The exit code of a script is zero exactly if nothing is written to the error output. -/
theorem Command.runText_code {b : Bounds} {source : String} {r : Report}
    (h : run b source Machine.fresh = .ok r) (hr : r.Judges b source Machine.fresh) (shown : String) :
    ∃ code, runText b shown source = .exited code (shown ++ r.output) r.errorText [] ∧
      (code = 0 ∨ code = 1) ∧ (code = 0 ↔ r.errorText = "") := by
  have htext : runText b shown source =
      .exited (if r.ok then 0 else 1) (shown ++ r.output) r.errorText [] := by
    rw [runText, h]
  refine ⟨_, htext, ?_, ?_⟩
  · cases r.ok with
    | true => exact .inl rfl
    | false => exact .inr rfl
  · rw [Report.errorText_eq_empty, ← hr.ok_iff]
    cases r.ok <;> simp

/-- Every run of a source ends with a report or comes to a loop that goes on for too long, and what
the report says is the verdict: the run succeeds exactly if nothing is reported; lexical errors are
reported first, syntax errors second, and last one fault of the execution at most, which presupposes
that no declaration was dropped; and where one was dropped, nothing is printed and the scopes and the
line are left as they were. The reports are those that a sink receives during the run, and the verdict
is what follows from the flags that are set on the way, whatever the sink has received before. So a
script that can be read and decoded ends with the exit code zero exactly if nothing is written to the
error output, and else with the exit code one. -/
theorem verdict_is_what_is_reported :
    (∀ (b : Bounds) (source : String) (sink : List Diagnostic) (m : Machine),
      (∃ r, run b source m = .ok r ∧
          runInto b source sink m = .ok ⟨r.ok, sink ++ r.diagnostics, r.machine⟩ ∧
          r.Judges b source m) ∨
        run b source m = .error .unfinished ∧
          runInto b source sink m = .error (.execution .unfinished) ∧
          (Scan.ofSource source).Unfinished b m) ∧
    ∀ (b : Bounds) (lookup : String → Lookup) (events : List Event) (arguments : List String)
      (name : String) (bytes : ByteArray) (source : String),
      Command.Request.ofArguments arguments = .script name →
      '\x00' ∉ name.toList → lookup name = .ok bytes →
      Command.decode? bytes = some source →
        (∃ code stdout stderr,
          Command.answer b lookup false events arguments = .exited code stdout stderr [] ∧
            (code = 0 ∨ code = 1) ∧ (code = 0 ↔ stderr = "")) ∨
          Command.answer b lookup false events arguments = .crashed (.halted .unfinished) ∧
            (Scan.ofSource source).Unfinished b Machine.fresh := by
  refine ⟨fun b source sink m => ?_,
    fun b lookup events arguments name bytes source hrequest hname hfound hdecoded => ?_⟩
  · rw [runInto_eq]
    rcases run_judges b source m with ⟨r, hrun, hr⟩ | ⟨hrun, hunfinished⟩
    · exact .inl ⟨r, hrun, by rw [hrun]; rfl, hr⟩
    · exact .inr ⟨hrun, by rw [hrun], hunfinished⟩
  have hanswer : Command.answer b lookup false events arguments = Command.runText b "" source := by
    simp [Command.answer, hrequest, Command.runScript, hname, hfound, Command.runBytes, hdecoded]
  rw [hanswer]
  rcases run_judges b source Machine.fresh with ⟨r, hrun, hr⟩ | ⟨hrun, hunfinished⟩
  · obtain ⟨code, htext, hcode⟩ := Command.runText_code hrun hr ""
    exact .inl ⟨code, _, _, htext, hcode⟩
  · refine .inr ⟨?_, hunfinished⟩
    rw [Command.runText, hrun]

/-- A script with a stray character, an assignment to no variable, and an operand that is no number. -/
def thriceFaultySource : String := "@ nil = true; -nil;"

theorem thriceFaultySource_fails :
    ∃ code stdout stderr,
      Command.answer {} (fun _ => .ok thriceFaultySource.toUTF8) false [] ["faulty.lox"] =
          .exited code stdout stderr [] ∧
        (code = 0 ∨ code = 1) ∧ (code = 0 ↔ stderr = "") := by
  have hdecoded : Command.decode? thriceFaultySource.toUTF8 = some thriceFaultySource := by
    decide +kernel
  rcases verdict_is_what_is_reported.2 {} (fun _ => .ok thriceFaultySource.toUTF8) [] ["faulty.lox"]
    "faulty.lox" thriceFaultySource.toUTF8 thriceFaultySource (by decide) (by decide) rfl hdecoded with
    hexited | ⟨hcrashed, -⟩
  · exact hexited
  · have hends : Command.answer {} (fun _ => .ok thriceFaultySource.toUTF8) false [] ["faulty.lox"] ≠
        .crashed (.halted .unfinished) := by decide +kernel
    exact absurd hcrashed hends

end LoxScript
