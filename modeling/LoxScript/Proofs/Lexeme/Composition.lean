import LoxScript.Proofs.Lexeme.Joining

/-!
# Scanning a joined text is scanning its parts

A text may be scanned line by line, as long as no line ends within a text between quotation marks.
Joining a second text to a first one by a line feed puts its tokens behind those of the first one and
its errors behind those of the first one, each of them as many lines below as the first text has line
feeds, and one more for the line feed that joins the two (`scan_of_joined_sources`). So whoever collects
lines may scan them as they come or all at once.
-/

namespace LoxScript

/-- The same error on another line. -/
def LexicalError.moved (g : Int → Int) (e : LexicalError) : LexicalError :=
  { e with line := g e.line }

theorem Piece.error?_add (line k : Int) (p : Piece) :
    p.error? (line + k) = (p.error? line).map (LexicalError.moved (· + k)) := by
  cases p <;> rfl

namespace Scan

/-- The errors of more pieces come behind, on the lines below. -/
theorem errorsOf_append (line : Int) (ps qs : List Piece) :
    errorsOf line (ps ++ qs) = errorsOf line ps ++ errorsOf (line + height ps) qs := by
  induction ps generalizing line with
  | nil => simp [errorsOf, height]
  | cons p ps ih =>
    rw [List.cons_append, errorsOf, errorsOf, ih, height_cons]
    simp only [List.append_assoc, Int.add_assoc]

/-- Pieces that start on a later line have the same errors on later lines. -/
theorem errorsOf_add (line k : Int) (ps : List Piece) :
    errorsOf (line + k) ps = (errorsOf line ps).map (LexicalError.moved (· + k)) := by
  induction ps generalizing line with
  | nil => rfl
  | cons p ps ih =>
    have hlast : line + k + Text.newlines p.chars = line + Text.newlines p.chars + k := by omega
    have hlater := ih (line + Text.newlines p.chars)
    rw [errorsOf, errorsOf, hlast, Piece.error?_add, hlater, List.map_append, Option.toList_map]

section

variable {s : String} (hclosed : Closed s) (t : String)

include hclosed

/-- The tokens of the first text lose their end mark only. -/
theorem tokens_of_joined :
    (ofSource (s ++ "\n" ++ t)).tokens = (ofSource s).tokens.dropLast ++
      (ofSource t).tokens.map (Token.moved (· + (1 + (Text.newlines s.toList : Int)))) := by
  have hbare : (ofSource s).tokens.dropLast = bare s := by
    rw [tokens_ofSource, List.dropLast_concat]
  have hlines : height (pieces s.toList) + 1 = 1 + (Text.newlines s.toList : Int) := by
    rw [height_pieces]
    omega
  rw [tokens_joined hclosed, ← tokens_ofSource, hbare, hlines]

/-- The errors of two sources in one are those of both, the second ones on lines further down. -/
theorem errors_of_joined :
    (ofSource (s ++ "\n" ++ t)).errors = (ofSource s).errors ++
      (ofSource t).errors.map (LexicalError.moved (· + (1 + (Text.newlines s.toList : Int)))) := by
  have hline : (1 : Int) + height (pieces s.toList) + Text.newlines Piece.newline.chars =
      1 + (1 + (Text.newlines s.toList : Int)) := by
    rw [height_pieces]
    show (1 : Int) + _ + 1 = _
    omega
  simp only [ofSource, ofPieces_eq]
  rw [pieces_toList_joined hclosed, errorsOf_append, errorsOf, hline, errorsOf_add]
  rfl

end

end Scan

/-- Scanning is compositional. If the first text leaves no quotation mark open, then the tokens of the
two texts joined by a line feed are those of the first one but for its end mark, and those of the
second one, as many lines below as the first one has lines; the same goes for the reports; and scanning
them fails if scanning one of them does. -/
theorem scan_of_joined_sources (s t : String)
    (hopen : ∀ e ∈ (Scan.ofSource s).errors, e.cause ≠ .openText) :
    (Scan.ofSource (s ++ "\n" ++ t)).tokens = (Scan.ofSource s).tokens.dropLast ++
        (Scan.ofSource t).tokens.map (Token.moved (· + (1 + (Text.newlines s.toList : Int)))) ∧
      (Scan.ofSource s).tokens =
        (Scan.ofSource s).tokens.dropLast ++ [Token.endAt (1 + (Text.newlines s.toList : Int))] ∧
      (Scan.ofSource (s ++ "\n" ++ t)).diagnostics = (Scan.ofSource s).diagnostics ++
        (Scan.ofSource t).diagnostics.map
          (fun d => { d with line := d.line + (1 + (Text.newlines s.toList : Int)) }) ∧
      (Scan.ofSource (s ++ "\n" ++ t)).failed =
        ((Scan.ofSource s).failed || (Scan.ofSource t).failed) := by
  have hclosed := Scan.closed_of_errors hopen
  refine ⟨Scan.tokens_of_joined hclosed t, ?_, ?_, Scan.failed_joined hclosed t⟩
  · rw [Scan.tokens_ofSource, List.dropLast_concat, Scan.endOf, Scan.height_pieces]
  · rw [Scan.diagnostics, Scan.errors_of_joined hclosed, List.map_append, List.map_map,
      Scan.diagnostics, Scan.diagnostics, List.map_map]
    rfl

/-- A text over two lines, a stray character, and a comment. -/
def remarkedSource : String := "a = \"b\nc\" @ 1. // \"d"

/-- A sign that could continue the end of a line, and a quotation mark that is left open. -/
def unclosedSource : String := "= 5 #\n\"e"

theorem scan_of_remarkedSource_unclosedSource :
    (∀ e ∈ (Scan.ofSource remarkedSource).errors, e.cause ≠ .openText) ∧
      (Scan.ofSource (remarkedSource ++ "\n" ++ unclosedSource)).diagnostics =
        [⟨2, "", "Unexpected character."⟩, ⟨3, "", "Unexpected character."⟩,
          ⟨4, "", "Unterminated string."⟩] := by
  have hopen : ∀ e ∈ (Scan.ofSource remarkedSource).errors, e.cause ≠ .openText := by
    decide +kernel
  have hparts : (Scan.ofSource remarkedSource).diagnostics ++
      (Scan.ofSource unclosedSource).diagnostics.map
        (fun d => { d with line := d.line + (1 + (Text.newlines remarkedSource.toList : Int)) }) =
      [⟨2, "", "Unexpected character."⟩, ⟨3, "", "Unexpected character."⟩,
        ⟨4, "", "Unterminated string."⟩] := by
    decide +kernel
  obtain ⟨-, -, hreports, -⟩ := scan_of_joined_sources remarkedSource unclosedSource hopen
  exact ⟨hopen, hreports.trans hparts⟩

end LoxScript
