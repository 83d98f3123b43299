import LoxScript.Proofs.Machine.Relocation
import LoxScript.Proofs.Run.Relabeling

/-!
# Layout does not matter

Where its tokens stand makes no difference to a program. If two programs differ in the lines of their
tokens only, then they are read, executed and reported in the same way, up to lines. To be equal up to
lines means here to become equal when everything is moved to the first line. Sources that differ only in
their layout, that is in line feeds, blanks and comments between the tokens, are two such programs.
-/

namespace LoxScript

/-- Every line becomes the first one. -/
def firstLine : Int → Int := fun _ => 1

variable {g : Int → Int}

/-! ## Outcomes on other lines -/

/-- The machine on another line. -/
def Machine.moved (g : Int → Int) (m : Machine) : Machine := { m with line := g m.line }

/-- The same outcome on other lines. -/
def movedResult (g : Int → Int) :
    EStateM.Result Halt Machine Unit → EStateM.Result Halt Machine Unit
  | .ok u m => .ok u (m.moved g)
  | .error h m => .error (h.moved g) (m.moved g)

/-- The report of the same error on another line. -/
def Diagnostic.moved (g : Int → Int) (d : Diagnostic) : Diagnostic := { d with line := g d.line }

/-- The same report on other lines. -/
def Report.moved (g : Int → Int) (r : Report) : Report :=
  ⟨r.ok, r.diagnostics.map (Diagnostic.moved g), r.machine.moved g⟩

theorem Machine.relabeled_eq_moved (m : Machine) : m.relabeled (.ofLines g) = m.moved g := by
  unfold relabeled moved
  rw [show m.chain.renamed (Relabeling.ofLines g).name = m.chain from m.chain.renamed_id]
  rfl

theorem relabeledResult_eq_moved (r : EStateM.Result Halt Machine Unit) :
    relabeledResult (.ofLines g) r = movedResult g r := by
  cases r with
  | ok u m => rw [relabeledResult, movedResult, m.relabeled_eq_moved]
  | error h m => rw [relabeledResult, movedResult, m.relabeled_eq_moved, h.relabeled_ofLines]

theorem SyntaxError.diagnostic_moved (e : SyntaxError) :
    (e.moved g).diagnostic = e.diagnostic.moved g := rfl

theorem Fault.diagnostic_relabeled (f : Fault) :
    (f.relabeled (.ofLines g)).diagnostic = f.diagnostic.moved g := by
  cases f with
  | lexical e => rfl
  | syntactic e =>
    rw [relabeled, SyntaxError.relabeled_ofLines]
    rfl
  | runtime e =>
    obtain ⟨token, cause⟩ := e
    cases cause <;> rfl
  | overflow line => rfl

/-! ## Reading -/

/-- Tokens that are equal up to lines are read in the same way. -/
theorem Program.relabeled_congr (nesting : Nat) {ts us : List Token}
    (h : ts.map (Token.moved firstLine) = us.map (Token.moved firstLine)) :
    (ofTokens nesting ts).relabeled (.ofLines firstLine) =
      (ofTokens nesting us).relabeled (.ofLines firstLine) := by
  rw [← ofTokens_relabeled _ _ _ fun _ => rfl, ← ofTokens_relabeled _ _ _ fun _ => rfl,
    Token.relabeled_ofLines, h]

/-- The errors are reported in the same way, and are as many. -/
theorem Program.diagnostics_congr {p q : Program}
    (h : p.errors.map (SyntaxError.moved g) = q.errors.map (SyntaxError.moved g)) :
    p.diagnostics.map (Diagnostic.moved g) = q.diagnostics.map (Diagnostic.moved g) ∧
      p.failed = q.failed := by
  constructor
  · have hmap : ∀ es : List SyntaxError,
        (es.map SyntaxError.diagnostic).map (Diagnostic.moved g) =
          (es.map (SyntaxError.moved g)).map SyntaxError.diagnostic := by
      intro es
      simp [SyntaxError.diagnostic_moved, Function.comp_def]
    rw [diagnostics, diagnostics, hmap, hmap, h]
  · have hempty := congrArg List.isEmpty h
    rw [List.isEmpty_map, List.isEmpty_map] at hempty
    rw [failed, failed, hempty]

/-! ## Execution -/

/-- On a machine that differs in its line only, statements that are equal up to lines have the same
outcome up to lines. -/
theorem Stmt.execAll_congr (b : Bounds) (room : Nat) {ss ts : List Stmt}
    (h : movedAll firstLine ss = movedAll firstLine ts) {m m' : Machine} (hchain : m.chain = m'.chain)
    (houtput : m.output = m'.output) :
    movedResult firstLine (execAll b room ss m) = movedResult firstLine (execAll b room ts m') := by
  have hmoved : ∀ (us : List Stmt) (m : Machine),
      movedResult firstLine (execAll b room us m) =
        execAll b room (movedAll firstLine us) (m.moved firstLine) := by
    intro us m
    rw [← relabeledResult_eq_moved, ← relabeledAll_ofLines, ← m.relabeled_eq_moved,
      execAll_relabeledAll (.ofLines firstLine) Function.injective_id
        (b.relabeled_ofLines firstLine)]
  have hm : m.moved firstLine = m'.moved firstLine := by
    rw [Machine.moved, Machine.moved, hchain, houtput]
    rfl
  rw [hmoved, hmoved, h, hm]

/-! ## Runs -/

/-- A run on the first line does the same as the run of the program where it stands. -/
theorem Scan.run_moved (b : Bounds) (scan : Scan) (m : Machine) :
    (scan.relabeled (.ofLines firstLine)).run b (m.moved firstLine) =
      (scan.run b m).map (Report.moved firstLine) := by
  have hrun := run_relabeled (.ofLines firstLine) scan m (fun _ => rfl)
    Function.injective_id (b.relabeled_ofLines firstLine)
  rw [m.relabeled_eq_moved] at hrun
  rw [hrun]
  by_cases hends : scan.Unfinished b m
  · rw [run_of_unfinished hends]
    rfl
  · rw [run_of_ends hends]
    simp only [Except.map, Report.moved, List.map_map, Machine.relabeled_eq_moved,
      Fault.diagnostic_relabeled]
    rfl

/-- Scans that are equal up to lines are run in the same way up to lines. -/
theorem Scan.run_congr (b : Bounds) {scan scan' : Scan}
    (h : scan.relabeled (.ofLines firstLine) = scan'.relabeled (.ofLines firstLine)) {m m' : Machine}
    (hchain : m.chain = m'.chain) :
    (scan.run b m).map (Report.moved firstLine) = (scan'.run b m').map (Report.moved firstLine) := by
  -- what was printed before a run makes no difference to it
  have hrun := run_moved b scan { m with output := "" }
  have hrun' := run_moved b scan' { m' with output := "" }
  have hm : Machine.moved firstLine { m with output := "" } =
      Machine.moved firstLine { m' with output := "" } := by
    simp only [Machine.moved, hchain, firstLine]
  rw [h, hm] at hrun
  exact hrun.symm.trans hrun'

/-! ## Sources -/

namespace Piece

/-- The piece stands between tokens and is not reported. -/
def isLayout : Piece → Bool
  | newline | blanks _ | comment _ => true
  | _ => false

theorem token?_moved (line : Int) (p : Piece) :
    (p.token? line).map (Token.moved firstLine) = p.token? 1 := by
  cases p <;> rfl

theorem error?_relabeled (line : Int) (p : Piece) :
    (p.error? line).map (LexicalError.relabeled (.ofLines firstLine)) = p.error? 1 := by
  cases p <;> rfl

/-- What is not found in layout is found in the other pieces. -/
theorem filterMap_layout {α : Type} {f : Piece → Option α} (h : ∀ p, p.isLayout = true → f p = none)
    (ps : List Piece) : (ps.filter fun p => !p.isLayout).filterMap f = ps.filterMap f := by
  rw [List.filterMap_filter]
  refine congrArg (fun k => ps.filterMap k) (funext fun p => ?_)
  cases hp : p.isLayout with
  | true => exact (h p hp).symm
  | false => rfl

end Piece

namespace Scan

/-- On the first line, a scan is what its pieces are one by one. -/
theorem relabeled_ofPieces (line : Int) (ps : List Piece) :
    (ofPieces line ps).relabeled (.ofLines firstLine) =
      ⟨ps.filterMap (Piece.token? 1) ++ [Token.endAt 1], ps.filterMap (Piece.error? 1)⟩ := by
  induction ps generalizing line with
  | nil => rfl
  | cons p ps ih =>
    have hlater := ih (line + Text.newlines p.chars)
    simp only [relabeled, Token.relabeled_ofLines, Scan.mk.injEq] at hlater ⊢
    simp only [ofPieces, List.map_append, ← Option.toList_map, Piece.token?_moved,
      Piece.error?_relabeled, hlater]
    constructor
    · rw [List.filterMap_cons]
      cases p.token? 1 <;> rfl
    · rw [List.filterMap_cons]
      cases p.error? 1 <;> rfl

/-- Sources that differ only in their layout are scanned in the same way, up to lines. -/
theorem relabeled_of_layout {source source' : String}
    (h : ((pieces source.toList).filter fun p => !p.isLayout) =
      (pieces source'.toList).filter fun p => !p.isLayout) :
    (ofSource source).relabeled (.ofLines firstLine) =
      (ofSource source').relabeled (.ofLines firstLine) := by
  have htoken : ∀ p : Piece, p.isLayout = true → p.token? 1 = none := by
    intro p hp
    cases p <;> first | rfl | cases hp
  have herror : ∀ p : Piece, p.isLayout = true → p.error? 1 = none := by
    intro p hp
    cases p <;> first | rfl | cases hp
  unfold ofSource
  rw [relabeled_ofPieces, relabeled_ofPieces, ← Piece.filterMap_layout htoken,
    ← Piece.filterMap_layout herror, h, Piece.filterMap_layout htoken, Piece.filterMap_layout herror]

end Scan

/-- The layout of a program does not matter. Tokens that are equal up to lines are read as statements
that are equal up to lines, with the same errors up to lines, and with the same drops and the same
position at the end; statements that are equal up to lines have the same outcome up to lines on machines
that differ in their lines only; and sources without lexical errors that are scanned as the same tokens
up to lines, as well as all sources that differ in their layout only, are run in the same way up to
lines. -/
theorem layout_is_immaterial :
    (∀ (nesting : Nat) (ts us : List Token),
      ts.map (Token.moved firstLine) = us.map (Token.moved firstLine) →
        Stmt.movedAll firstLine (Program.ofTokens nesting ts).statements =
            Stmt.movedAll firstLine (Program.ofTokens nesting us).statements ∧
          (Program.ofTokens nesting ts).diagnostics.map (Diagnostic.moved firstLine) =
            (Program.ofTokens nesting us).diagnostics.map (Diagnostic.moved firstLine) ∧
          (Program.ofTokens nesting ts).failed = (Program.ofTokens nesting us).failed ∧
          (Program.ofTokens nesting ts).panicked = (Program.ofTokens nesting us).panicked ∧
          (Program.ofTokens nesting ts).position = (Program.ofTokens nesting us).position) ∧
    (∀ (b : Bounds) (room : Nat) (ss ts : List Stmt) (m m' : Machine),
      Stmt.movedAll firstLine ss = Stmt.movedAll firstLine ts →
      m.chain = m'.chain → m.output = m'.output →
        movedResult firstLine (Stmt.execAll b room ss m) =
          movedResult firstLine (Stmt.execAll b room ts m')) ∧
    ∀ (b : Bounds) (source source' : String) (m m' : Machine), m.chain = m'.chain →
      ((Scan.ofSource source).errors = [] ∧ (Scan.ofSource source').errors = [] ∧
          (Scan.ofSource source).tokens.map (Token.moved firstLine) =
            (Scan.ofSource source').tokens.map (Token.moved firstLine) ∨
        ((pieces source.toList).filter fun p => !p.isLayout) =
          (pieces source'.toList).filter fun p => !p.isLayout) →
      (run b source m).map (Report.moved firstLine) =
        (run b source' m').map (Report.moved firstLine) := by
  refine ⟨fun nesting ts us h => ?_, fun b room ss ts m m' h => Stmt.execAll_congr b room h,
    fun b source source' m m' hchain h => ?_⟩
  · have hprogram := Program.relabeled_congr nesting h
    simp only [Program.relabeled, Stmt.relabeledAll_ofLines, SyntaxError.relabeled_ofLines,
      Program.mk.injEq] at hprogram
    obtain ⟨hstatements, herrors, hpanicked, hposition⟩ := hprogram
    obtain ⟨hdiagnostics, hfailed⟩ := Program.diagnostics_congr herrors
    exact ⟨hstatements, hdiagnostics, hfailed, hpanicked, hposition⟩
  · rw [← Scan.run_ofSource, ← Scan.run_ofSource]
    refine Scan.run_congr b ?_ hchain
    rcases h with ⟨hnone, hnone', htokens⟩ | hpieces
    · simp only [Scan.relabeled, Token.relabeled_ofLines, htokens, hnone, hnone']
    · exact Scan.relabeled_of_layout hpieces

/-- A program over four lines, with a comment. -/
def spreadSource : String := "var a;\n// a is nil\n\nprint a ;\n  b;"

/-- The same program on one line. -/
def packedSource : String := "var a;print a;b;"

theorem spreadSource_runs_as_packedSource :
    (run {} spreadSource Machine.fresh).map (Report.moved firstLine) =
        (run {} packedSource Machine.fresh).map (Report.moved firstLine) ∧
      Stmt.movedAll firstLine (Program.ofTokens 9 (Scan.ofSource spreadSource).tokens).statements =
        Stmt.movedAll firstLine (Program.ofTokens 9 (Scan.ofSource packedSource).tokens).statements ∧
      movedResult firstLine (Stmt.execAll {} 9
          (Program.ofTokens 9 (Scan.ofSource spreadSource).tokens).statements Machine.fresh) =
        movedResult firstLine (Stmt.execAll {} 9
          (Program.ofTokens 9 (Scan.ofSource packedSource).tokens).statements Machine.fresh) := by
  obtain ⟨hread, hexecuted, hrun⟩ := layout_is_immaterial
  have hlexical : (Scan.ofSource spreadSource).errors = [] ∧ (Scan.ofSource packedSource).errors = [] ∧
      (Scan.ofSource spreadSource).tokens.map (Token.moved firstLine) =
        (Scan.ofSource packedSource).tokens.map (Token.moved firstLine) := by decide +kernel
  have hstatements := (hread 9 _ _ hlexical.2.2).1
  exact ⟨hrun {} spreadSource packedSource Machine.fresh Machine.fresh rfl (.inl hlexical), hstatements,
    hexecuted {} 9 _ _ Machine.fresh Machine.fresh hstatements rfl rfl⟩

end LoxScript
