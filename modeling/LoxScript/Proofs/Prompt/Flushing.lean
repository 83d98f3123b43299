import LoxScript.Proofs.Grammar.Attempts
import LoxScript.Proofs.Prompt.Typing
import LoxScript.Proofs.Run.Outcome

/-!
# A blank line ends an entry

A dialogue waits for more lines as long as all that is wrong with an entry is blamed on its end. Only
the last error of a program can be blamed on the end, and then a declaration was dropped
(`Program.diagnostics_ending`). So if the user gives up on an entry and types a blank line, then the
entry is run with no effect but a single report (`Dialogue.blank_line_reports_once`).
-/

namespace LoxScript

namespace Program

variable (room : Nat) (ts : List Token)

/-- At most one report is about the end. It is the last one, and a declaration was dropped. -/
theorem diagnostics_ending :
    (ofTokens room ts).diagnostics.countP (·.location == " at end") ≤ 1 ∧
      ∀ d ∈ (ofTokens room ts).diagnostics, d.location = " at end" →
        (ofTokens room ts).diagnostics.getLast? = some d ∧
          (ofTokens room ts).panicked = true := by
  obtain ⟨es, last, herrors, hes, hlast⟩ := errors_ending room ts
  have hearlier : ∀ d ∈ es.map SyntaxError.diagnostic, d.location ≠ " at end" := by
    intro d hd
    obtain ⟨e, he, rfl⟩ := List.mem_map.mp hd
    exact fun hlocation => hes e he (Token.location_eq_end.mp hlocation)
  have hcount : (es.map SyntaxError.diagnostic).countP (·.location == " at end") = 0 :=
    List.countP_eq_zero.mpr fun d hd => by simpa using hearlier d hd
  rw [diagnostics, herrors, List.map_append]
  cases last with
  | none =>
    rw [Option.toList_none, List.map_nil, List.append_nil]
    refine ⟨hcount.le.trans (Nat.zero_le 1), fun d hd hlocation => ?_⟩
    exact absurd hlocation (hearlier d hd)
  | some e =>
    rw [Option.toList_some, List.map_singleton, List.getLast?_concat, List.countP_append, hcount,
      Nat.zero_add]
    refine ⟨List.countP_le_length, fun d hd hlocation => ?_⟩
    rcases List.mem_append.mp hd with hd | hd
    · exact absurd hlocation (hearlier d hd)
    · rw [List.mem_singleton.mp hd]
      exact ⟨rfl, hlast (by simp)⟩

end Program

/-! ## Running an incomplete source -/

section

variable {b : Bounds} {source : String}

/-- There is exactly one thing wrong with an incomplete source, and a declaration of it is dropped. -/
theorem findings_of_incomplete (h : isIncomplete b source = true) :
    ¬ Kept b.nesting source ∧ ∃ d, d.location = " at end" ∧ findings b source = [d] := by
  obtain ⟨hlexical, hne, hend⟩ := isIncomplete_iff_errors.mp h
  obtain ⟨es, last, herrors, hes, hlast⟩ :=
    Program.errors_ending b.nesting (Scan.ofSource source).tokens
  rw [herrors] at hne hend
  obtain rfl : es = [] := by
    refine List.eq_nil_iff_forall_not_mem.mpr fun e he => ?_
    exact hes e he (hend e (List.mem_append_left _ he))
  cases last with
  | none => exact absurd rfl hne
  | some e =>
    refine ⟨?_, e.diagnostic, Token.location_eq_end.mpr (hend e (by simp)), ?_⟩
    · rw [Kept, hlast (by simp)]
      exact Bool.false_ne_true.symm
    · rw [findings, Scan.diagnostics, hlexical, Program.diagnostics, herrors]
      rfl

/-- The run of an incomplete source reports one thing and does nothing. -/
theorem run_of_incomplete (h : isIncomplete b source = true) :
    ∃ d, d.location = " at end" ∧
      ∀ m, run b source m = .ok ⟨false, [d], { m with output := "" }⟩ := by
  obtain ⟨hdropped, d, hlocation, hfindings⟩ := findings_of_incomplete h
  refine ⟨d, hlocation, fun m => ?_⟩
  rw [run_of_dropped hdropped m, hfindings]

end

namespace Dialogue

/-! ## Waiting entries -/

/-- A dialogue that can be reached by typing and interrupting. -/
inductive Reached (b : Bounds) : Dialogue → Prop where
  | fresh : Reached b fresh
  | respond {d : Dialogue} {e : Event} {r : Reaction} (hd : Reached b d)
      (h : d.respond b e = .ok r) (hstays : r.leaves = false) : Reached b r.dialogue

variable {b : Bounds} {d : Dialogue} {r : Reaction}

/-- The entry that waits is incomplete, if there is one. -/
def Waits (b : Bounds) (d : Dialogue) : Prop :=
  d.pending ≠ [] → isIncomplete b (Text.joinLines d.pending) = true

theorem waits_enter {lines : List String} (h : d.enter b lines = .ok r) :
    r.dialogue.Waits b := by
  unfold enter at h
  cases hrun : run b (Text.joinLines lines) d.machine with
  | error halt =>
    rw [hrun] at h
    cases h
  | ok report =>
    rw [hrun] at h
    cases h
    exact fun hne => absurd rfl hne

theorem waits_respond {e : Event} (hd : d.Waits b) (h : d.respond b e = .ok r) :
    r.dialogue.Waits b := by
  cases e with
  | interrupt =>
    cases h
    unfold onInterrupt
    split
    · exact hd
    · exact fun hne => absurd rfl hne
  | line text =>
    unfold respond onLine at h
    dsimp only at h
    split at h
    · cases h
      exact hd
    · split at h
      · exact waits_enter h
      · split at h
        · next hincomplete =>
          cases h
          exact fun _ => hincomplete
        · exact waits_enter h

theorem Reached.waits (h : Reached b d) : d.Waits b := by
  induction h with
  | fresh => exact fun hne => absurd rfl hne
  | respond _ h _ ih => exact waits_respond ih h

theorem onLine_of_blank {text : String} (hne : d.pending ≠ []) (hblank : Text.trim text = "") :
    d.onLine b text = d.enter b d.pending := by
  have hstays : leavingWords.contains (Text.trim text) = false := by
    rw [hblank]
    decide
  have hpending : d.pending.isEmpty = false := by simpa using hne
  have hempty : (Text.trim text).isEmpty = true := by
    rw [hblank]
    rfl
  unfold onLine
  simp only [hstays, hpending, hempty, Bool.false_eq_true, if_false, Bool.not_false, Bool.and_self,
    if_true]

/-- A blank line runs the entry that waits, which reports one thing and does nothing. -/
theorem Reached.onLine_of_blank {text : String} (h : Reached b d) (hne : d.pending ≠ [])
    (hblank : Text.trim text = "") :
    ∃ report : Diagnostic, report.location = " at end" ∧
      d.onLine b text =
        .ok ⟨⟨{ d.machine with output := "" }, []⟩, "", Text.line report.render, false⟩ := by
  obtain ⟨report, hlocation, hrun⟩ := run_of_incomplete (h.waits hne)
  refine ⟨report, hlocation, ?_⟩
  rw [Dialogue.onLine_of_blank hne hblank, enter, hrun d.machine]
  show Except.ok _ = _
  rw [Report.errorText, List.map_singleton, String.join_cons, String.join_nil, String.append_empty]
  rfl

/-- The end of a program is blamed at most once, by its last report, and a declaration is dropped
then. So the run of an incomplete source consists of one report: it counts as failed, prints nothing
and leaves the machine as it is. And a blank line behind an entry that waits, in whatever dialogue,
writes this one report, after which no entry waits. -/
theorem blank_line_reports_once :
    (∀ (room : Nat) (ts : List Token),
      (Program.ofTokens room ts).diagnostics.countP (·.location == " at end") ≤ 1 ∧
        ∀ d ∈ (Program.ofTokens room ts).diagnostics, d.location = " at end" →
          (Program.ofTokens room ts).diagnostics.getLast? = some d ∧
            (Program.ofTokens room ts).panicked = true) ∧
    (∀ (b : Bounds) (source : String), isIncomplete b source = true →
      ∃ d, d.location = " at end" ∧
        ∀ m, run b source m = .ok ⟨false, [d], { m with output := "" }⟩) ∧
    ∀ (b : Bounds) (d : Dialogue) (text : String), Reached b d → d.pending ≠ [] →
      Text.trim text = "" →
        ∃ report : Diagnostic, report.location = " at end" ∧
          d.onLine b text =
            .ok ⟨⟨{ d.machine with output := "" }, []⟩, "", Text.line report.render, false⟩ :=
  ⟨Program.diagnostics_ending, fun _ _ => run_of_incomplete, fun _ _ _ => Reached.onLine_of_blank⟩

/-- A line that leaves a parenthesis open. -/
def openLine : String := "print (nil"

/-- Typing it and then a line of two blanks. -/
theorem blank_line_behind_openLine :
    fresh.respond {} (.line openLine) = .ok ⟨⟨Machine.fresh, [openLine]⟩, "", "", false⟩ ∧
      ∃ report : Diagnostic, report.location = " at end" ∧
        (⟨Machine.fresh, [openLine]⟩ : Dialogue).onLine {} "  " =
          .ok ⟨fresh, "", Text.line report.render, false⟩ := by
  have hplain : PlainLine openLine := by decide +kernel
  have hincomplete : isIncomplete {} (Text.joinLines (fresh.pending ++ [openLine])) = true := by
    decide +kernel
  have hwaits : fresh.respond {} (.line openLine) =
      .ok ⟨⟨Machine.fresh, [openLine]⟩, "", "", false⟩ := by
    rw [respond, onLine_plain hplain, if_pos hincomplete]
    rfl
  exact ⟨hwaits, blank_line_reports_once.2.2 {} _ "  " (.respond .fresh hwaits rfl) (by simp)
    (by decide +kernel)⟩

end Dialogue

end LoxScript
