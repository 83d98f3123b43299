import LoxScript.Proofs.Lexeme.Stray
import LoxScript.Proofs.Run.Verdict

/-!
# Running a source with stray characters

A source with stray characters is run as if there were blanks in their place, whatever else is wrong with
it: it prints the same, leaves the same machine, and the same errors are reported. The stray characters
are reported in front of these, one by one, and the run does not count as a success
(`strays_act_as_blanks`).
-/

namespace LoxScript

/-- The same report, behind other reports; it counts as a success only if `clean` holds as well. -/
def Report.behind (clean : Bool) (before : List Diagnostic) (r : Report) : Report :=
  ⟨clean && r.ok, before ++ r.diagnostics, r.machine⟩

theorem Report.ofResult_behind (clean clean' : Bool) (before found : List Diagnostic)
    (r : EStateM.Result Halt Machine Unit) :
    ofResult (clean && clean') (before ++ found) r =
      (ofResult clean' found r).map (behind clean before) := by
  have hfailed : ∀ (d : Diagnostic) (m : Machine),
      (⟨false, before ++ found ++ [d], m⟩ : Report) = behind clean before ⟨false, found ++ [d], m⟩ := by
    intro d m
    rw [behind, Bool.and_false, List.append_assoc]
  cases r with
  | ok u m => rfl
  | error h m =>
    cases h with
    | error e => exact congrArg Except.ok (hfailed _ m)
    | overflow => exact congrArg Except.ok (hfailed _ m)
    | _ => rfl

namespace Scan

/-- Errors in front of those of a scan change its run only by their reports. -/
theorem run_behind {scan scan' : Scan} {es : List LexicalError} (htokens : scan'.tokens = scan.tokens)
    (herrors : scan'.errors = es ++ scan.errors) (b : Bounds) (m : Machine) :
    scan'.run b m =
      (scan.run b m).map (Report.behind es.isEmpty (es.map LexicalError.diagnostic)) := by
  have hprogram : scan'.program b = scan.program b := by rw [program, program, htokens]
  have houtcome : scan'.outcome b m = scan.outcome b m := by rw [outcome, outcome, hprogram]
  have hdiagnostics : scan'.diagnostics = es.map LexicalError.diagnostic ++ scan.diagnostics := by
    rw [diagnostics, diagnostics, herrors, List.map_append]
  have hclean : (!(scan'.failed || (scan.program b).failed)) =
      (es.isEmpty && !(scan.failed || (scan.program b).failed)) := by
    rw [failed, failed, herrors]
    cases es <;> simp
  unfold run
  rw [hprogram, houtcome, hdiagnostics, List.append_assoc, hclean]
  split
  · rw [Except.map, Report.behind, Bool.and_false]
  · exact Report.ofResult_behind _ _ _ _ _

end Scan

/-- Stray characters act as blanks. If every stray character of a source is replaced by a blank, then
what is replaced are exactly the characters that are reported, in order. The cleared source is scanned
as the same tokens, on the same lines, with the same error about a text that is not closed, if there is
one, and no other error. And on every machine, the source is run as the cleared source is, with the same
output, the same scopes and the same reports, except that the stray characters are reported first, and
that the run is a success only if there are none. -/
theorem strays_act_as_blanks (source : String) :
    (cleared source).length = source.length ∧
      (replaced source.toList (cleared source).toList).map
          (fun c => (LexicalCause.strayCharacter (String.singleton c.1), c.2)) =
        (Scan.ofSource source).strays.map (fun e => (e.cause, ' ')) ∧
      (Scan.ofSource (cleared source)).tokens = (Scan.ofSource source).tokens ∧
      (Scan.ofSource (cleared source)).errors = (Scan.ofSource source).unclosed ∧
      ∀ (b : Bounds) (m : Machine),
        run b source m = (run b (cleared source) m).map fun r =>
          ⟨(Scan.ofSource source).strays.isEmpty && r.ok,
            (Scan.ofSource source).strays.map LexicalError.diagnostic ++ r.diagnostics, r.machine⟩ := by
  have hcleared : (cleared source).toList = (pieces source.toList).flatMap Piece.cleared :=
    String.toList_ofList
  have hscan := Scan.ofSource_cleared source
  have herrors : (Scan.ofSource source).errors =
      (Scan.ofSource source).strays ++ (Scan.ofSource (cleared source)).errors := by
    rw [hscan]
    exact Scan.errors_strays_unclosed source
  refine ⟨?_, ?_, by rw [hscan], by rw [hscan], fun b m => ?_⟩
  · rw [← String.length_toList, ← String.length_toList, hcleared]
    exact (blanked_cleared source.toList).length_eq.symm
  · have hreplaced := replaced_cleared source.toList 1
    rw [hcleared, hreplaced, Scan.strays, Scan.ofSource, Scan.ofPieces_eq]
  · have htokens : (Scan.ofSource source).tokens = (Scan.ofSource (cleared source)).tokens := by
      rw [hscan]
    exact Scan.run_behind htokens herrors b m

/-- Within a text or a comment, no character is stray. -/
example : cleared "1 @ % é= \"@\"; // @" = "1      = \"@\"; // @" := by decide +kernel

end LoxScript
