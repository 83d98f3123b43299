import LoxScript.Proofs.Machine.Overflow
import LoxScript.Proofs.Run.Outcome

/-!
# The line of a stack overflow

The report of a stack overflow is the last one of a run, and it carries the line of the statement
that was started last. This is the statement that was executing when the stack was exhausted, unless
a loop was evaluating its condition again: then it is a statement in the body of the loop
(`overflow_blames_started_statement`, `returningSource_blames_body`).
-/

namespace LoxScript

/-! ## No other report is about the stack -/

/-- No syntax error is worded like a stack overflow. -/
theorem SyntaxCause.message_ne (c : SyntaxCause) : c.message ≠ "Stack overflow." := by
  cases c with
  | expectLeftParen after => cases after <;> decide
  | expectRightParen after => cases after <;> decide
  | expectSemicolon after => cases after <;> decide
  | _ => decide

theorem LexicalCause.message_ne (c : LexicalCause) : c.message ≠ "Stack overflow." := by
  cases c <;> simp [message]

theorem RuntimeError.message_ne (e : RuntimeError) : e.message ≠ "Stack overflow." := by
  obtain ⟨token, cause⟩ := e
  cases cause with
  | undefinedVariable =>
    intro h
    have hchars := congrArg String.toList h
    simp [message] at hchars
  | _ => simp [message]

theorem message_of_findings {b : Bounds} {source : String} {d : Diagnostic}
    (hd : d ∈ findings b source) : d.message ≠ "Stack overflow." := by
  rcases List.mem_append.mp hd with hd | hd
  · obtain ⟨e, -, rfl⟩ := List.mem_map.mp hd
    exact e.cause.message_ne
  · obtain ⟨e, -, rfl⟩ := List.mem_map.mp hd
    exact e.cause.message_ne

section

variable {b : Bounds} {source : String} {m : Machine} {r : Report} {d : Diagnostic}

/-- If a stack overflow is reported, then the program was executed until the stack was exhausted, and
nothing is reported behind it. -/
theorem exec_of_overflow (h : run b source m = .ok r) (hd : d ∈ r.diagnostics)
    (hmessage : d.message = "Stack overflow.") :
    ∃ m', Stmt.execAll b b.room (statementsOf b.nesting source) { m with output := "" } =
        .error .overflow m' ∧
      d = overflowDiagnostic m'.line ∧ r = ⟨false, findings b source ++ [d], m'⟩ := by
  by_cases hkept : Kept b.nesting source
  · rcases run_eq_ok hkept h with ⟨m', -, rfl⟩ | ⟨halt, m', d', hexec, hreport, rfl⟩
    · exact absurd hmessage (message_of_findings hd)
    · rcases List.mem_append.mp hd with hd | hd
      · exact absurd hmessage (message_of_findings hd)
      · obtain rfl := List.mem_singleton.mp hd
        cases halt with
        | overflow =>
          cases hreport
          exact ⟨m', hexec, rfl, rfl⟩
        | error e =>
          cases hreport
          exact absurd hmessage e.message_ne
        | _ => cases hreport
  · rw [run_of_dropped hkept] at h
    cases h
    exact absurd hmessage (message_of_findings hd)

/-- If the report of a run says that the stack was exhausted, then that is its last report, and the
line it carries is the one of the innermost statement that was executing: which evaluated an
expression of its own, or was about to start a part of it. Only if a loop was evaluating its
condition again it is the line of a statement in the body, which came to its end before. -/
theorem overflow_blames_started_statement (h : run b source m = .ok r) (hd : d ∈ r.diagnostics)
    (hmessage : d.message = "Stack overflow.") :
    r.diagnostics.getLast? = some d ∧ d = overflowDiagnostic r.machine.line ∧
      ∃ x, Stmt.watchAll b none b.room (statementsOf b.nesting source) { m with output := "" } =
        some x ∧ x.Notes d.line := by
  obtain ⟨m', hexec, rfl, rfl⟩ := exec_of_overflow h hd hmessage
  have hfits := Stmt.located_execAll b none b.room (statementsOf b.nesting source)
    (P := fun _ => True) (fun _ _ => trivial) { m with output := "" } ⟨nofun, trivial⟩
  rw [hexec] at hfits
  exact ⟨List.getLast?_concat, rfl, hfits.exists_activity⟩

end

/-- Reading the variable `boom` exhausts the stack. -/
def explosive : Bounds := { trap := (· == "boom") }

/-- A condition is evaluated in a block on the third line. -/
def enclosedSource : String := "print nil;\n\x7b\n  if (boom)\n    print nil;\n\x7d"

theorem enclosedSource_blames_condition :
    ∃ r x, run explosive enclosedSource Machine.fresh = .ok r ∧
      r.diagnostics = [overflowDiagnostic 3] ∧
      Stmt.watchAll explosive none explosive.room
        (statementsOf explosive.nesting enclosedSource) Machine.fresh = some x ∧ x.Notes 3 := by
  have hresult : (run explosive enclosedSource Machine.fresh).toOption.map Report.diagnostics =
      some [overflowDiagnostic 3] := by decide +kernel
  cases hrun : run explosive enclosedSource Machine.fresh with
  | ok r =>
    rw [hrun] at hresult
    have hdiagnostics : r.diagnostics = [overflowDiagnostic 3] := Option.some.inj hresult
    obtain ⟨-, -, x, htold, hnotes⟩ := overflow_blames_started_statement
      (d := overflowDiagnostic 3) hrun (by rw [hdiagnostics]; exact List.mem_singleton_self _) rfl
    exact ⟨r, x, rfl, hdiagnostics, htold, hnotes⟩
  | error halt =>
    rw [hrun] at hresult
    cases hresult

/-- The condition of the loop on the second line is evaluated again, behind a turn of its body on the
third line. -/
def returningSource : String := "var go = true;\nwhile (go or boom)\n  go = false;"

/-- The line of the body is reported, where nothing was executing any more. -/
theorem returningSource_blames_body :
    (run explosive returningSource Machine.fresh).toOption.map Report.diagnostics =
        some [overflowDiagnostic 3] ∧
      ∃ c body, Stmt.watchAll explosive none explosive.room
        (statementsOf explosive.nesting returningSource) Machine.fresh =
          some (.returning c body 2) := by
  refine ⟨by decide +kernel, ?_⟩
  have hline : (match Stmt.watchAll explosive none explosive.room
      (statementsOf explosive.nesting returningSource) Machine.fresh with
    | some (.returning _ _ line) => line == 2
    | _ => false) = true := by decide +kernel
  split at hline
  · next c body line htold =>
    rw [htold, beq_iff_eq.mp hline]
    exact ⟨c, body, rfl⟩
  · cases hline

end LoxScript
