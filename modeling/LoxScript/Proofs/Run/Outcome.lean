import LoxScript.Proofs.Machine.Turns
import LoxScript.Proofs.Run.Session

/-!
# What comes of a run

A tree that was read from tokens has no node that means nothing, so that its execution can break off
for two reasons only: an error of the program, or an exhausted stack. Both are reported. What remains
is that it never breaks off and never ends, because a loop goes on for ever. So every run has a report,
or the source contains a loop that never stops (`run_reports_or_loops`).
-/

namespace LoxScript

/-- The outcome of the statements of a program, for every number of turns. -/
def Bounds.outcome (b : Bounds) (room : Nat) (ss : List Stmt) (m : Machine) (turns : Nat) :
    EStateM.Result Halt Machine Unit :=
  Stmt.execAll (b.granting turns) room ss m

/-- A way to end that a program of the language accounts for: it is carried out, or broken off by an
error of its own or by an exhausted stack. -/
def Accountable : EStateM.Result Halt Machine Unit → Prop
  | .ok _ _ => True
  | .error h _ => h.Ordinary

/-- A well-built program ends in a way that it accounts for, the same one for every number of turns
that is large enough, or it comes to a loop that never stops. -/
theorem outcome_of_wellBuilt (b : Bounds) (room : Nat) {ss : List Stmt}
    (hss : Stmt.WellBuiltAll ss) (m : Machine) :
    (∃ r n, Accountable r ∧ ∀ turns, n ≤ turns → b.outcome room ss m turns = r) ∨
      Stmt.DivergesAll b room ss m ∧
        ∀ turns, ∃ m', b.outcome room ss m turns = .error .unfinished m' := by
  rcases (steady_execAll b room ss).settles_or_forever m with ⟨r, hfinished, n, hn⟩ | hforever
  · refine .inl ⟨r, n, ?_, hn⟩
    cases r with
    | ok u m' => trivial
    | error h m' =>
      rw [unfinished_error_iff] at hfinished
      rcases breaks_execAll (b.granting n) room ss hss m h m' (hn n (Nat.le_refl n)) with
        hordinary | hunfinished
      · exact hordinary
      · exact absurd hunfinished hfinished
  · exact .inr ⟨divergesAll_of_forever b room ss hss hforever, hforever⟩

/-- An accountable outcome is reported. -/
theorem Report.exists_of_accountable (clean : Bool) (found : List Diagnostic)
    {r : EStateM.Result Halt Machine Unit} (hr : Accountable r) :
    ∃ report, ofResult clean found r = .ok report := by
  cases r with
  | ok u m => exact ⟨_, rfl⟩
  | error h m =>
    rcases hr with ⟨e, rfl⟩ | rfl
    · exact ⟨_, rfl⟩
    · exact ⟨_, rfl⟩

theorem run_of_dropped {b : Bounds} {source : String} (h : ¬ Kept b.nesting source) (m : Machine) :
    run b source m = .ok ⟨false, findings b source, { m with output := "" }⟩ := by
  have hpanicked : (Program.ofTokens b.nesting (Scan.ofSource source).tokens).panicked = true :=
    eq_true_of_ne_false h
  exact if_pos hpanicked

/-- A run has a report for every number of turns that is large enough, or the source is executed and
comes to a loop that never stops. -/
theorem run_cases (b : Bounds) (source : String) (m : Machine) :
    (∃ report n, ∀ turns, n ≤ turns → run (b.granting turns) source m = .ok report) ∨
      Stmt.DivergesAll b b.room (statementsOf b.nesting source) { m with output := "" } ∧
        ∀ turns, run (b.granting turns) source m = .error .unfinished := by
  by_cases hkept : Kept b.nesting source
  · have hrun : ∀ turns, run (b.granting turns) source m =
        Report.ofResult (!faulty b.nesting source) (findings b source)
          (b.outcome b.room (statementsOf b.nesting source) { m with output := "" } turns) :=
      fun turns => run_of_kept (b := b.granting turns) hkept m
    rcases outcome_of_wellBuilt b b.room (wellBuiltAll_ofTokens b.nesting _)
      { m with output := "" } with ⟨r, n, hr, hn⟩ | ⟨hdiverges, hforever⟩
    · obtain ⟨report, hreport⟩ :=
        Report.exists_of_accountable (!faulty b.nesting source) (findings b source) hr
      refine .inl ⟨report, n, fun turns hturns => ?_⟩
      rw [hrun turns, ← hreport]
      exact congrArg _ (hn turns hturns)
    · refine .inr ⟨hdiverges, fun turns => ?_⟩
      obtain ⟨m', hm'⟩ := hforever turns
      rw [hrun turns]
      exact congrArg (Report.ofResult _ _) hm'
  · exact .inl ⟨⟨false, findings b source, { m with output := "" }⟩, 0,
      fun turns _ => run_of_dropped (b := b.granting turns) hkept m⟩

/-- Whatever tokens a program is read from, even if declarations had to be dropped, and whatever
machine executes it with whatever bounds, it never comes to an expression, an operator or a statement
that execution does not know: it is carried out, or broken off by an error of the program, an exhausted
stack, or the number of turns. Only if it comes to a loop that never stops is no number of turns
enough. So every run of a source ends with a report, unless it comes to such a loop. -/
theorem run_reports_or_loops :
    (∀ (b : Bounds) (nesting room : Nat) (ts : List Token) (m : Machine),
      (∀ h m', Stmt.execAll b room (Program.ofTokens nesting ts).statements m = .error h m' →
        (∃ e, h = .error e) ∨ h = .overflow ∨ h = .unfinished) ∧
      ((∃ r n, Accountable r ∧ ∀ turns, n ≤ turns →
          b.outcome room (Program.ofTokens nesting ts).statements m turns = r) ∨
        Stmt.DivergesAll b room (Program.ofTokens nesting ts).statements m ∧
          ∀ turns, ∃ m', b.outcome room (Program.ofTokens nesting ts).statements m turns =
            .error .unfinished m')) ∧
    ∀ (b : Bounds) (source : String) (m : Machine),
      (∃ report n, ∀ turns, n ≤ turns → run (b.granting turns) source m = .ok report) ∨
        Stmt.DivergesAll b b.room (statementsOf b.nesting source) { m with output := "" } ∧
          ∀ turns, run (b.granting turns) source m = .error .unfinished := by
  refine ⟨fun b nesting room ts m => ?_, run_cases⟩
  have hbuilt := wellBuiltAll_ofTokens nesting ts
  refine ⟨fun h m' hr => ?_, outcome_of_wellBuilt b room hbuilt m⟩
  rcases breaks_execAll b room _ hbuilt m h m' hr with (herror | hoverflow) | hunfinished
  · exact .inl herror
  · exact .inr (.inl hoverflow)
  · exact .inr (.inr hunfinished)

/-- A program of which a declaration is dropped, and the rest cannot be carried out. -/
def unnegatableSource : String := "var 1; -nil;"

theorem unnegatableSource_breaks :
    ∃ h m', Stmt.execAll {} 1000
        (Program.ofTokens 1000 (Scan.ofSource unnegatableSource).tokens).statements Machine.fresh =
          .error h m' ∧
      ((∃ e, h = .error e) ∨ h = .overflow ∨ h = .unfinished) := by
  have hbreaks : (match Stmt.execAll {} 1000
      (Program.ofTokens 1000 (Scan.ofSource unnegatableSource).tokens).statements Machine.fresh with
    | .ok _ _ => false
    | .error _ _ => true) = true := by decide +kernel
  cases hexec : Stmt.execAll {} 1000
      (Program.ofTokens 1000 (Scan.ofSource unnegatableSource).tokens).statements Machine.fresh with
  | ok u m' =>
    rw [hexec] at hbreaks
    cases hbreaks
  | error h m' =>
    exact ⟨h, m', rfl, (run_reports_or_loops.1 {} 1000 1000 _ Machine.fresh).1 h m' hexec⟩

end LoxScript
