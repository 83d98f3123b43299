import Mathlib.Data.List.Forall2
import LoxScript.Proofs.Lexeme.Alternation

/-!
# What a scan says of its source

A scan is accounted for by the pieces of its source: the tokens are the pieces that are tokens, in
order, and the end mark; the reports are those of the stray characters, in order, and that of the
text that is not closed, if there is one. Each of them is on the line on which its piece ends, which
is counted by the line feeds of the source up to there.

`scan_by_maximal_munch` puts this together with the splitting of the source by maximal munch.
-/

namespace LoxScript

namespace Piece

/-- The piece is a token. -/
def isToken : Piece → Bool
  | text _ | numeral _ _ | word _ | sign _ _ => true
  | _ => false

/-- The kind of the token that a piece is. A word has the kind that is reserved for it, or else is an
identifier. -/
inductive HasKind : Piece → TokenKind → Prop where
  | text (inner : List Char) : HasKind (text inner) .text
  | numeral (whole fraction : List Char) : HasKind (numeral whole fraction) .number
  | reserved {letters : List Char} {kind : TokenKind}
      (h : (String.ofList letters, kind) ∈ TokenKind.words) : HasKind (word letters) kind
  | identifier {letters : List Char} (h : ∀ kind, (String.ofList letters, kind) ∉ TokenKind.words) :
      HasKind (word letters) .identifier
  | sign (chars : List Char) (kind : TokenKind) : HasKind (sign chars kind) kind

/-- The value that a token denotes. -/
def value : Piece → Value
  | text inner => .text (String.ofList inner)
  | numeral whole fraction => .number (Decimal.ofDigits whole fraction)
  | _ => .nil

/-- The token stands for the piece, which ends on the given line. -/
structure Denotes (p : Piece) (line : Int) (t : Token) : Prop where
  kind : p.HasKind t.kind
  lexeme : t.lexeme.toList = p.chars
  literal : t.literal = p.value
  line : t.line = line

/-! ## Tokens -/

/-- A piece that stands for a token denotes it. -/
theorem token?_of_isToken {p : Piece} (h : p.isToken = true) (line : Int) :
    ∃ t, p.token? line = some t ∧ p.Denotes line t := by
  cases p with
  | text inner => exact ⟨_, rfl, .text inner, String.toList_ofList, rfl, rfl⟩
  | numeral whole fraction => exact ⟨_, rfl, .numeral whole fraction, String.toList_ofList, rfl, rfl⟩
  | sign chars kind => exact ⟨_, rfl, .sign chars kind, String.toList_ofList, rfl, rfl⟩
  | word letters =>
    refine ⟨_, rfl, ?_, String.toList_ofList, rfl, rfl⟩
    cases hword : TokenKind.ofWord? (String.ofList letters) with
    | none =>
      refine .identifier fun kind hmem => ?_
      exact absurd hword (by
        rw [TokenKind.ofWord?, List.lookup_eq_none_iff]
        intro h
        exact absurd (h _ hmem) (by simp))
    | some kind =>
      refine .reserved ?_
      obtain ⟨before, after, hwords, -⟩ := List.lookup_eq_some_iff.mp hword
      rw [hwords]
      simp
  | _ => cases h

theorem token?_of_not_isToken {p : Piece} (h : p.isToken = false) (line : Int) :
    p.token? line = none := by
  cases p <;> first | rfl | cases h

/-- A word is no identifier exactly if it is reserved. -/
theorem Denotes.reserved_iff {letters : List Char} {line : Int} {t : Token}
    (h : (word letters).Denotes line t) :
    t.kind ≠ .identifier ↔ String.ofList letters ∈ TokenKind.words.map Prod.fst := by
  have hproper : ∀ w ∈ TokenKind.words, w.2 ≠ .identifier := by decide
  obtain ⟨hkind, -, -, -⟩ := h
  generalize t.kind = kind at hkind
  cases hkind with
  | reserved hmem =>
    constructor
    · intro _
      exact List.mem_map_of_mem hmem
    · intro _
      exact hproper _ hmem
  | identifier hnone =>
    constructor
    · intro hne
      exact absurd rfl hne
    · intro hmem
      obtain ⟨⟨name, kind⟩, hmem, rfl⟩ := List.mem_map.mp hmem
      exact absurd hmem (hnone kind)

end Piece

namespace Scan

/-- The pieces that stand behind the text `before`, each with the line on which it ends: one more
than there are line feeds in the source up to the end of the piece. -/
def ends (before : List Char) : List Piece → List (Piece × Int)
  | [] => []
  | p :: ps =>
    (p, 1 + (Text.newlines (before ++ p.chars) : Int)) :: ends (before ++ p.chars) ps

/-- The line on which a source ends. -/
def lastLine (source : String) : Int := 1 + (Text.newlines source.toList : Int)

/-- The report of a stray character, given the line on which the piece ends. -/
def strayReport? : Piece × Int → Option Diagnostic
  | (.stray _, line) => some ⟨line, "", "Unexpected character."⟩
  | _ => none

/-- The reports that the pieces of a source call for: one for every stray character, and one more, on
the last line of the source, if a text is not closed. -/
def reports (source : String) (ps : List Piece) : List Diagnostic :=
  (ends [] ps).filterMap strayReport? ++
    if ps.any Piece.isOpen then [⟨lastLine source, "", "Unterminated string."⟩] else []

/-- The scan is what the pieces of a source account for. -/
structure Accounts (source : String) (ps : List Piece) (scan : Scan) : Prop where
  tokens : ∃ ts, scan.tokens = ts ++ [Token.endAt (lastLine source)] ∧
    List.Forall₂ (fun e t => Piece.Denotes e.1 e.2 t) ((ends [] ps).filter (·.1.isToken)) ts
  diagnostics : scan.diagnostics = reports source ps
  failed : scan.failed = true ↔ scan.diagnostics ≠ []

/-- The tokens of a scan are those that its pieces denote, on the lines on which they end. -/
theorem tokensOf_accounted (before : List Char) (ps : List Piece) :
    List.Forall₂ (fun e t => Piece.Denotes e.1 e.2 t) ((ends before ps).filter (·.1.isToken))
      (tokensOf (1 + (Text.newlines before : Int)) ps) := by
  induction ps generalizing before with
  | nil => exact .nil
  | cons p ps ih =>
    have hline : (1 : Int) + Text.newlines before + Text.newlines p.chars =
        1 + Text.newlines (before ++ p.chars) := by
      rw [Text.newlines_append]
      omega
    have hlater := ih (before ++ p.chars)
    rw [ends, tokensOf, hline]
    cases hp : p.isToken with
    | true =>
      obtain ⟨t, ht, hdenotes⟩ :=
        Piece.token?_of_isToken hp (1 + (Text.newlines (before ++ p.chars) : Int))
      rw [List.filter_cons_of_pos (by simpa using hp), ht]
      exact .cons hdenotes hlater
    | false =>
      rw [List.filter_cons_of_neg (by simp [hp]), Piece.token?_of_not_isToken hp]
      exact hlater

/-! ## Reports -/

/-- Nothing stands behind a text that is not closed. -/
theorem rest_of_openText {inner rest : List Char}
    (h : (Piece.openText inner).CutOff ((Piece.openText inner).chars ++ rest)) : rest = [] := by
  cases h with
  | longest h _ => cases h.1
  | openText hcs _ => simpa [Piece.chars] using hcs

/-- A text that is not closed is the last piece. -/
theorem errorsOf_accounted {cs : List Char} {ps : List Piece} (h : Splits cs ps)
    (before : List Char) :
    (errorsOf (1 + (Text.newlines before : Int)) ps).map LexicalError.diagnostic =
      (ends before ps).filterMap strayReport? ++
        if ps.any Piece.isOpen then
          [⟨1 + (Text.newlines (before ++ cs) : Int), "", "Unterminated string."⟩] else [] := by
  induction h generalizing before with
  | nil => rfl
  | @cons p rest ps hcut hrest ih =>
    have hline : (1 : Int) + Text.newlines before + Text.newlines p.chars =
        1 + Text.newlines (before ++ p.chars) := by
      rw [Text.newlines_append]
      omega
    have hlater := ih (before ++ p.chars)
    rw [errorsOf, ends, ← List.append_assoc, hline, List.map_append, hlater]
    cases p with
    | openText inner =>
      obtain rfl := rest_of_openText hcut
      obtain rfl := (splits_iff.mp hrest).trans (by rw [pieces])
      simp [Piece.error?, ends, Piece.isOpen, strayReport?, LexicalError.diagnostic,
        LexicalCause.message]
    | stray c => rfl
    | _ => rfl

end Scan

/-- Scanning a source splits it by maximal munch, in the only way there is, and loses nothing; the
tokens and the reports are those that the pieces account for, each with the line on which its piece
ends; a word is no identifier exactly if it is reserved; and to find a piece it is enough to take the
first of the ordered patterns that matches. -/
theorem scan_by_maximal_munch (source : String) :
    ∃ ps : List Piece, (∀ qs, Splits source.toList qs ↔ qs = ps) ∧
      ps.flatMap Piece.chars = source.toList ∧
      (Scan.ofSource source).Accounts source ps ∧
      (∀ letters line t, (Piece.word letters).Denotes line t →
        (t.kind ≠ .identifier ↔ String.ofList letters ∈ TokenKind.words.map Prod.fst)) ∧
      ∀ cs p, Piece.alternation cs = some p ↔ p.CutOff cs := by
  have htokens := Scan.tokensOf_accounted [] (pieces source.toList)
  have hreports := Scan.errorsOf_accounted (splits_pieces source.toList) []
  have hheight := Scan.height_pieces source
  have haccounts : (Scan.ofSource source).Accounts source (pieces source.toList) :=
    { tokens := ⟨Scan.bare source, by
        rw [Scan.tokens_ofSource, Scan.endOf, hheight, Scan.lastLine], htokens⟩
      diagnostics := by
        rw [Scan.diagnostics, Scan.ofSource, Scan.ofPieces_eq]
        exact hreports
      failed := by
        simp [Scan.failed, Scan.diagnostics] }
  exact ⟨pieces source.toList, fun qs => splits_iff, flatMap_chars_pieces _, haccounts,
    fun _ _ _ h => h.reserved_iff, fun _ _ => Piece.alternation_eq_some_iff⟩

end LoxScript
