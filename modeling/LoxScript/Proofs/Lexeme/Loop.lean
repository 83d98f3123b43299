import LoxScript.Proofs.Decimal.Reading
import LoxScript.Proofs.Flag
import LoxScript.Proofs.Lexeme.Blanks

/-!
# Scanning in a loop

Scanning once more, this time as a loop over the pieces of a source that counts lines, collects
tokens, hands its errors over to a sink as it finds them, and sets a flag at each of these places
(`Scanner.step`). The flag is state of its own. The number that a numeral denotes is read from its text,
and the loop breaks off if that text denotes none.

Each step keeps the flag in agreement with the sink, whatever the piece (`Scanner.tells_step`), and so
does the loop (`Scanner.tells_foldlM`). A step over a piece of a source never breaks off, and adds the
token and the error of that piece, on the line on which it ends (`Scanner.step_of_found`). So the loop
yields what scanning a source yields, and its flag is set exactly if that scan has an error
(`Scanner.exists_ofSource`).
-/

namespace LoxScript

/-! ## Pieces within a line -/

namespace Piece

/-- Line feeds stand in such pieces only. -/
def mayEndLine : Piece → Bool
  | newline | text _ | openText _ => true
  | _ => false

/-- Where no character may be a line feed, there is none. -/
theorem newlines_of_all {q : Char → Bool} {cs : List Char} (hcs : ∀ c ∈ cs, q c = true)
    (hq : q '\n' = false) : Text.newlines cs = 0 := by
  refine List.count_eq_zero.mpr fun hline => ?_
  rw [hcs _ hline] at hq
  cases hq

/-- All other pieces of a source end on the line on which they start. -/
theorem Found.newlines_of_within {p : Piece} (hp : p.Found) (hwithin : p.mayEndLine = false) :
    Text.newlines p.chars = 0 := by
  cases hp with
  | lexical hp =>
    cases hp with
    | blanks hne h => exact (Found.lexical (.blanks hne h)).newlines_eq_zero rfl
    | @comment body h =>
      refine List.count_eq_zero.mpr fun hline => h ?_
      simpa [chars] using hline
    | @numeral whole fraction hne hw hf =>
      have hwhole : Text.newlines whole = 0 := newlines_of_all hw rfl
      have hfraction : Text.newlines fraction = 0 := newlines_of_all hf rfl
      cases fraction with
      | nil => exact hwhole
      | cons d ds =>
        change Text.newlines (whole ++ (['.'] ++ (d :: ds))) = 0
        rw [Text.newlines_append, Text.newlines_append, hwhole, hfraction]
        rfl
    | @word c letters hc h =>
      have hfirst : isWordChar c = true := by simp [isWordChar, hc]
      exact newlines_of_all (List.forall_mem_cons.mpr ⟨hfirst, h⟩) rfl
    | @sign chars kind h =>
      have hsigns : ∀ e ∈ signs, Text.newlines e.1 = 0 := by decide
      exact hsigns _ h
    | _ => cases hwithin
  | @stray c hline hblank =>
    exact List.count_eq_zero.mpr fun hmem => hline (List.mem_singleton.mp hmem).symm
  | openText h => cases hwithin

/-- The text of a numeral denotes the number that its digits denote. -/
theorem Found.read_numeral {whole fraction : List Char} (hp : (numeral whole fraction).Found) :
    Decimal.read? (String.ofList (numeral whole fraction).chars) =
      some (Decimal.ofDigits whole fraction) := by
  cases hp with
  | lexical hp =>
    cases hp with
    | numeral hne hw hf =>
      cases fraction with
      | nil => exact Decimal.read_digits hne hw
      | cons d ds => exact Decimal.read_decimal hne hw hf

end Piece

/-! ## The loop -/

/-- What the loop keeps from one piece to the next. -/
structure Scanner where
  /-- The line that is reached. -/
  line : Int
  /-- The tokens so far, in order. -/
  tokens : List Token
  /-- All that was reported so far, what was there before the loop included. -/
  sink : List Diagnostic
  /-- Whether an error was found. -/
  failed : Bool

namespace Scanner

/-- The loop before its first piece. -/
def start (sink : List Diagnostic) : Scanner := ⟨1, [], sink, false⟩

/-- Goes down a number of lines. -/
def down (s : Scanner) (lines : Nat) : Scanner := { s with line := s.line + lines }

/-- Adds a token on the line that is reached. -/
def push (s : Scanner) (kind : TokenKind) (lexeme : List Char) (literal : Value) : Scanner :=
  { s with tokens := s.tokens ++ [⟨kind, String.ofList lexeme, literal, s.line⟩] }

/-- Reports an error on the line that is reached. -/
def report (s : Scanner) (cause : LexicalCause) : Scanner :=
  { s with sink := s.sink ++ [LexicalError.diagnostic ⟨cause, s.line⟩] }

/-- Sets the flag. -/
def fail (s : Scanner) : Scanner := { s with failed := true }

/-- What the loop does with a piece. -/
def step (s : Scanner) : Piece → Option Scanner
  | .newline => some (s.down 1)
  | .blanks _ | .comment _ => some s
  | .stray c => some (s.report (.strayCharacter (String.singleton c))).fail
  | .openText inner =>
    some ((s.down (Text.newlines (Piece.openText inner).chars)).report .openText).fail
  | .text inner =>
    let chars := (Piece.text inner).chars
    some ((s.down (Text.newlines chars)).push .text chars (.text (String.ofList inner)))
  | .numeral whole fraction =>
    let chars := (Piece.numeral whole fraction).chars
    (Decimal.read? (String.ofList chars)).map fun x => s.push .number chars (.number x)
  | .word letters =>
    some (s.push ((TokenKind.ofWord? (String.ofList letters)).getD .identifier) letters .nil)
  | .sign chars kind => some (s.push kind chars .nil)

/-- Scans a source and hands its errors over to the sink. -/
def ofSource (sink : List Diagnostic) (source : String) : Option Scanner := do
  let s ← (pieces source.toList).foldlM step (start sink)
  return s.push .endMark [] .nil

variable {before : List Diagnostic} {s s' : Scanner}

/-! ## The flag -/

/-- Whatever the piece is, a step keeps the flag in agreement with what was reported. -/
theorem tells_step (h : Tells before s.sink s.failed) {p : Piece} (hstep : s.step p = some s') :
    Tells before s'.sink s'.failed := by
  cases p with
  | stray c | openText inner =>
    obtain rfl := Option.some.inj hstep
    exact h.add _
  | numeral whole fraction =>
    rw [step, Option.map_eq_some_iff] at hstep
    obtain ⟨x, -, rfl⟩ := hstep
    exact h
  | _ =>
    obtain rfl := Option.some.inj hstep
    exact h

/-- So does the loop, piece by piece. -/
theorem tells_foldlM (h : Tells before s.sink s.failed) {ps : List Piece}
    (hloop : ps.foldlM step s = some s') : Tells before s'.sink s'.failed := by
  induction ps generalizing s with
  | nil =>
    obtain rfl := Option.some.inj hloop
    exact h
  | cons p ps ih =>
    obtain ⟨s₁, hstep, hlater⟩ := Option.bind_eq_some_iff.mp hloop
    exact ih (tells_step h hstep) hlater

/-- The flag is set exactly if the loop has reported anything. -/
theorem tells_ofSource {sink : List Diagnostic} {source : String}
    (h : ofSource sink source = some s) : Tells sink s.sink s.failed := by
  obtain ⟨s₁, hloop, hs⟩ := Option.bind_eq_some_iff.mp h
  obtain rfl := Option.some.inj hs
  have hstart : Tells sink (start sink).sink (start sink).failed := .start sink
  have htells : Tells sink s₁.sink s₁.failed := tells_foldlM hstart hloop
  exact htells

/-! ## The loop scans -/

/-- From one state to the other, the loop has reached the line `last` and has added tokens and errors. -/
structure Gains (s s' : Scanner) (last : Int) (ts : List Token) (es : List LexicalError) : Prop where
  line : s'.line = last
  tokens : s'.tokens = s.tokens ++ ts
  sink : s'.sink = s.sink ++ es.map LexicalError.diagnostic

/-- A step over a piece of a source adds what the piece stands for, on the line on which it ends. -/
theorem step_of_found {p : Piece} (hp : p.Found) (s : Scanner) :
    let last := s.line + (Text.newlines p.chars : Int)
    ∃ s', s.step p = some s' ∧ s.Gains s' last (p.token? last).toList (p.error? last).toList := by
  have hwithin : p.mayEndLine = false → s.line + (Text.newlines p.chars : Int) = s.line := by
    intro h
    rw [hp.newlines_of_within h]
    exact Int.add_zero s.line
  dsimp only
  cases p with
  | newline => exact ⟨_, rfl, rfl, (List.append_nil _).symm, (List.append_nil _).symm⟩
  | text inner => exact ⟨_, rfl, rfl, rfl, (List.append_nil _).symm⟩
  | openText inner => exact ⟨_, rfl, rfl, (List.append_nil _).symm, rfl⟩
  | stray c =>
    rw [hwithin rfl]
    exact ⟨_, rfl, rfl, (List.append_nil _).symm, rfl⟩
  | numeral whole fraction =>
    rw [hwithin rfl]
    rw [step, hp.read_numeral, Option.map_some]
    exact ⟨_, rfl, rfl, rfl, (List.append_nil _).symm⟩
  | word | sign =>
    rw [hwithin rfl]
    exact ⟨_, rfl, rfl, rfl, (List.append_nil _).symm⟩
  | blanks | comment =>
    rw [hwithin rfl]
    exact ⟨_, rfl, rfl, (List.append_nil _).symm, (List.append_nil _).symm⟩

/-- The loop never breaks off, and adds the tokens and the reports of a scan that starts on its line. -/
theorem foldlM_of_found {ps : List Piece} (hps : ∀ p ∈ ps, p.Found) (s : Scanner) :
    ∃ s', ps.foldlM step s = some s' ∧
      (s'.push .endMark [] .nil).tokens = s.tokens ++ (Scan.ofPieces s.line ps).tokens ∧
      s'.sink = s.sink ++ (Scan.ofPieces s.line ps).diagnostics := by
  induction ps generalizing s with
  | nil => exact ⟨s, rfl, rfl, (List.append_nil s.sink).symm⟩
  | cons p ps ih =>
    obtain ⟨hp, hps⟩ := List.forall_mem_cons.mp hps
    obtain ⟨s₁, hstep, hline, htokens, hsink⟩ := step_of_found hp s
    obtain ⟨s', hloop, htokens', hsink'⟩ := ih hps s₁
    rw [hline, htokens, List.append_assoc] at htokens'
    rw [hline, hsink, List.append_assoc] at hsink'
    refine ⟨s', Option.bind_eq_some_iff.mpr ⟨s₁, hstep, hloop⟩, htokens', hsink'.trans ?_⟩
    rw [Scan.ofPieces, Scan.diagnostics, Scan.diagnostics, ← List.map_append]

/-- The loop yields the tokens of a scan and reports its errors, and its flag says whether there are
any. -/
theorem exists_ofSource (sink : List Diagnostic) (source : String) :
    ∃ s, ofSource sink source = some s ∧ s.tokens = (Scan.ofSource source).tokens ∧
      s.sink = sink ++ (Scan.ofSource source).diagnostics ∧
      s.failed = (Scan.ofSource source).failed := by
  obtain ⟨s', hloop, htokens, hsink⟩ := foldlM_of_found (found_pieces source.toList) (start sink)
  have hscan : ofSource sink source = some (s'.push .endMark [] .nil) :=
    Option.bind_eq_some_iff.mpr ⟨s', hloop, rfl⟩
  refine ⟨_, hscan, htokens, hsink, ?_⟩
  rw [(tells_ofSource hscan).flag_eq hsink, Scan.diagnostics, List.isEmpty_map]
  rfl

end Scanner

end LoxScript
