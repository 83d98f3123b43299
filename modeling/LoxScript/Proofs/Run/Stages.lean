import LoxScript.Proofs.Grammar.Mirroring
import LoxScript.Proofs.Lexeme.Loop
import LoxScript.Run

/-!
# Running phase by phase

A run once more, this time with a sink to which all reports are handed over: by the scanning loop, by
reading on a tape, and behind an execution that breaks off (`runInto`). Whether the run succeeds is
computed from what the phases say of themselves: the flag of the scanning loop, the two flags of the
tape, and the way in which the execution ends. The sink is never looked at.

As each phase keeps its flag in agreement with what it reports, so does the run: it succeeds exactly if
nothing was added to the sink (`tells_runInto`). And it is the run of the source: the same reports are
added to any sink, and the verdict and the machine are the same (`runInto_eq`). So neither scanning nor
reading ever breaks down.
-/

namespace LoxScript

/-- What a run with a sink comes to. -/
structure Verdict where
  /-- What the run says of itself. -/
  ok : Bool
  /-- All that was reported, what was there before the run included. -/
  sink : List Diagnostic
  /-- The machine afterwards. -/
  machine : Machine

/-- Why a run comes to no verdict. -/
inductive Breakdown where
  /-- A numeral could not be read as a number. -/
  | scanning
  /-- A step on the tape broke off, and not because of a syntax error. -/
  | reading (f : Tape.Fault)
  /-- The execution broke off, and no error of the program explains why. -/
  | execution (h : Halt)

/-- The verdict behind an execution. It can only be that of the other phases, `clean`, if the execution
comes to its end; else the break is reported. -/
def Verdict.ofResult (clean : Bool) (sink : List Diagnostic) :
    EStateM.Result Halt Machine Unit → Except Breakdown Verdict
  | .ok _ m => .ok ⟨clean, sink, m⟩
  | .error (.error e) m => .ok ⟨false, sink ++ [e.diagnostic], m⟩
  | .error .overflow m => .ok ⟨false, sink ++ [overflowDiagnostic m.line], m⟩
  | .error h _ => .error (.execution h)

/-- Runs a source on a machine and hands all reports over to a sink. -/
def runInto (b : Bounds) (source : String) (sink : List Diagnostic) (m : Machine) :
    Except Breakdown Verdict :=
  match Scanner.ofSource sink source with
  | none => .error .scanning
  | some scanner =>
    match Tape.program b.nesting (.ofTokens scanner.tokens) with
    | .error f _ => .error (.reading f)
    | .ok statements tape =>
      let found := scanner.sink ++ tape.noted.map SyntaxError.diagnostic
      let start := { m with output := "" }
      if tape.panicked then .ok ⟨false, found, start⟩
      else
        Verdict.ofResult (!(scanner.failed || tape.failed)) found
          (Stmt.execAll b b.room statements start)

variable {b : Bounds} {source : String} {sink found : List Diagnostic} {m : Machine} {v : Verdict}

/-! ## The verdict comes from the flags -/

/-- An execution that breaks off adds a report, and then there is no success. -/
theorem Verdict.tells_ofResult {flag : Bool} (h : Tells sink found flag)
    {result : EStateM.Result Halt Machine Unit} (hv : ofResult (!flag) found result = .ok v) :
    Tells sink v.sink (!v.ok) := by
  unfold ofResult at hv
  split at hv
  · obtain rfl := Except.ok.inj hv
    simpa using h
  · obtain rfl := Except.ok.inj hv
    exact h.add _
  · obtain rfl := Except.ok.inj hv
    exact h.add _
  · cases hv

/-- A run succeeds exactly if none of its phases adds a report. -/
theorem tells_runInto (h : runInto b source sink m = .ok v) : Tells sink v.sink (!v.ok) := by
  unfold runInto at h
  split at h
  · cases h
  · next scanner hscan =>
    split at h
    · cases h
    · next statements tape hread =>
      have htape : tape.InOrder := Tape.inOrder_program hread
      have hfound := (Scanner.tells_ofSource hscan).trans
        (htape.tells.map SyntaxError.diagnostic scanner.sink)
      dsimp only at h
      by_cases hpanicked : tape.panicked = true
      · -- a declaration was dropped behind an error, whose flag is set
        rw [if_pos hpanicked] at h
        obtain rfl := Except.ok.inj h
        rwa [htape.failed_of_panicked hpanicked, Bool.or_true] at hfound
      · rw [if_neg hpanicked] at h
        exact Verdict.tells_ofResult hfound h

/-! ## The run with a sink is the run -/

/-- What becomes of a run if its reports are added to a sink. -/
def Report.into (sink : List Diagnostic) (r : Report) : Verdict :=
  ⟨r.ok, sink ++ r.diagnostics, r.machine⟩

theorem Verdict.ofResult_eq (clean : Bool) (sink found : List Diagnostic)
    (result : EStateM.Result Halt Machine Unit) :
    ofResult clean (sink ++ found) result =
      match Report.ofResult clean found result with
      | .ok r => .ok (r.into sink)
      | .error h => .error (.execution h) := by
  rcases result with ⟨u, m⟩ | ⟨h, m⟩
  · rfl
  · cases h with
    | error e => simp only [ofResult, Report.ofResult, Report.into, List.append_assoc]
    | overflow => simp only [ofResult, Report.ofResult, Report.into, List.append_assoc]
    | _ => rfl

/-- The run with a sink is the run of the source, whatever was reported before. -/
theorem runInto_eq (b : Bounds) (source : String) (sink : List Diagnostic) (m : Machine) :
    runInto b source sink m =
      match run b source m with
      | .ok r => .ok (r.into sink)
      | .error h => .error (.execution h) := by
  obtain ⟨scanner, hscan, htokens, hscanned, hlexical⟩ := Scanner.exists_ofSource sink source
  obtain ⟨tape, hread, hnoted, hpanicked, htape⟩ :=
    Tape.exists_program b.nesting (Scan.ofSource source).tokens
  have hsyntactic : tape.failed =
      (Program.ofTokens b.nesting (Scan.ofSource source).tokens).failed := by
    rw [htape.tells.flag_eq (hnoted.trans (List.nil_append _).symm), Program.failed]
  unfold runInto run
  rw [hscan]
  dsimp only
  rw [htokens, hread]
  dsimp only
  rw [hscanned, hlexical, hsyntactic, hnoted, hpanicked, List.append_assoc, Verdict.ofResult_eq]
  split
  · rfl
  · rfl

/-- A run says of itself that it succeeds exactly if it reports nothing. -/
theorem Report.ok_iff {r : Report} (h : run b source m = .ok r) :
    r.ok = true ↔ r.diagnostics = [] := by
  have hinto : runInto b source [] m = .ok (r.into []) := by rw [runInto_eq, h]
  have hflag : (!r.ok) = !r.diagnostics.isEmpty := (tells_runInto hinto).flag_eq rfl
  rw [Bool.not_inj hflag, List.isEmpty_iff]

end LoxScript
