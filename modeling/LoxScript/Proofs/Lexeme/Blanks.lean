import LoxScript.Proofs.Lexeme.Account
import LoxScript.Proofs.Lexeme.Ending

/-!
# Blanks between pieces

Blanks keep pieces apart and contribute nothing else. Blanks in front of a text leave its other pieces as
they are (`solid_pieces_append`), although the text itself may begin with blanks, which then belong to
the same run. And pieces that are no tokens and end no line can be left out of a scan: its tokens stay
the same, with their lines, and only the errors of these pieces are lost (`ofPieces_filter`).
-/

namespace LoxScript

namespace Piece

/-- The piece is no run of blanks. -/
def isSolid : Piece → Bool
  | blanks _ => false
  | _ => true

/-- What the pieces of a source look like. -/
inductive Found : Piece → Prop where
  | lexical {p : Piece} (h : p.Lexical) : Found p
  /-- A quotation mark behind which no other one follows. -/
  | openText {inner : List Char} (h : Text.quotationMark ∉ inner) : Found (openText inner)
  /-- A character that starts no piece, not even a line feed or a run of blanks. -/
  | stray {c : Char} (hline : c ≠ '\n') (hblank : c ≠ ' ') : Found (stray c)

theorem first_openText {inner : List Char} (h : Text.quotationMark ∉ inner) :
    first Text.quotationMark inner = (openText inner, []) := by
  have hinner := isInner_of_not_mem h
  show afterQuote inner = _
  rw [afterQuote, List.dropWhile_eq_nil_iff.mpr hinner, List.takeWhile_eq_self_iff.mpr hinner]

/-- The piece at the front of any text looks like one of these. -/
theorem found_first (c : Char) (rest : List Char) : (first c rest).1.Found := by
  cases hfault : (first c rest).1.isFault with
  | false => exact .lexical (lexical_first hfault)
  | true =>
    rcases first_of_fault hfault with ⟨rfl, hp⟩ | ⟨-, hp⟩
    · rw [hp]
      refine .openText fun hmem => ?_
      obtain ⟨inner, more, rfl, hinner⟩ := List.eq_append_cons_of_mem hmem
      rw [first_text hinner] at hfault
      cases hfault
    · rw [hp]
      refine .stray (fun hline => ?_) fun hblank => ?_
      · subst hline
        cases hfault
      · subst hblank
        cases hfault

/-- There is no line feed in a run of blanks. -/
theorem Found.newlines_eq_zero {p : Piece} (hp : p.Found) (hsolid : p.isSolid = false) :
    Text.newlines p.chars = 0 := by
  cases hp with
  | lexical hp =>
    cases hp with
    | @blanks run _ hrun =>
      refine List.count_eq_zero.mpr fun hline => ?_
      have hgap := hrun _ hline
      revert hgap
      decide
    | _ => cases hsolid
  | _ => cases hsolid

end Piece

theorem found_pieces (cs : List Char) : ∀ p ∈ pieces cs, p.Found := by
  fun_induction pieces cs with
  | case1 =>
    intro p hp
    cases hp
  | case2 c rest ih =>
    intro p hp
    rcases List.mem_cons.mp hp with rfl | hp
    · exact Piece.found_first c rest
    · exact ih p hp

/-! ## Blanks in front of a text -/

/-- A blank at the front starts a run that is cut off first. -/
theorem pieces_gap {c : Char} (hc : isGap c = true) (cs : List Char) :
    pieces (c :: cs) = .blanks (c :: cs.takeWhile isGap) :: pieces (cs.dropWhile isGap) := by
  rw [pieces_cons, Piece.first_of_gap hc]

/-- A blank in front of a text changes blanks only. -/
theorem solid_pieces_cons {c : Char} (hc : isGap c = true) (cs : List Char) :
    (pieces (c :: cs)).filter Piece.isSolid = (pieces cs).filter Piece.isSolid := by
  rw [pieces_gap hc, List.filter_cons_of_neg (by simp [Piece.isSolid])]
  cases cs with
  | nil => rfl
  | cons d cs =>
    by_cases hd : isGap d = true
    · rw [pieces_gap hd, List.filter_cons_of_neg (by simp [Piece.isSolid]),
        List.dropWhile_cons_of_pos hd]
    · rw [List.dropWhile_cons_of_neg hd]

/-- Blanks in front of a text change blanks only. -/
theorem solid_pieces_append {run : List Char} (hrun : ∀ c ∈ run, isGap c = true) (cs : List Char) :
    (pieces (run ++ cs)).filter Piece.isSolid = (pieces cs).filter Piece.isSolid := by
  induction run with
  | nil => rfl
  | cons c run ih =>
    obtain ⟨hc, hrun⟩ := List.forall_mem_cons.mp hrun
    rw [List.cons_append, solid_pieces_cons hc, ih hrun]

/-! ## Pieces that can be left out -/

/-- Leaving the piece out, or not, as `q` says makes no difference to the tokens and to the errors that
`k` keeps. -/
structure Piece.Spares (q : Piece → Bool) (k : LexicalError → Bool) (p : Piece) : Prop where
  token : q p = false → p.isToken = false
  line : q p = false → Text.newlines p.chars = 0
  error : ∀ line e, p.error? line = some e → k e = q p

/-- Pieces that make no difference can be left out of a scan. -/
theorem Scan.ofPieces_filter {q : Piece → Bool} {k : LexicalError → Bool} {ps : List Piece}
    (h : ∀ p ∈ ps, p.Spares q k) (line : Int) :
    ofPieces line (ps.filter q) = ⟨(ofPieces line ps).tokens, (ofPieces line ps).errors.filter k⟩ := by
  induction ps generalizing line with
  | nil => rfl
  | cons p ps ih =>
    obtain ⟨hp, hps⟩ := List.forall_mem_cons.mp h
    have hlater := ih hps (line + Text.newlines p.chars)
    -- the error of a piece is kept if the piece is
    have herror : (p.error? (line + Text.newlines p.chars)).toList.filter k =
        if q p then (p.error? (line + Text.newlines p.chars)).toList else [] := by
      cases he : p.error? (line + Text.newlines p.chars) with
      | none => simp
      | some e =>
        rw [Option.toList_some, ← hp.error _ e he]
        cases hk : k e <;> simp [hk]
    cases hq : q p with
    | true =>
      rw [List.filter_cons_of_pos hq, ofPieces, ofPieces, hlater, List.filter_append, herror,
        if_pos hq]
    | false =>
      have hsame : line + (Text.newlines p.chars : Int) = line := by
        rw [hp.line hq]
        exact Int.add_zero line
      rw [hsame] at hlater herror
      rw [List.filter_cons_of_neg (by simp [hq]), hlater, ofPieces, hsame, List.filter_append, herror,
        Piece.token?_of_not_isToken (hp.token hq), hq]
      rfl

/-- Blanks can be left out. -/
theorem Piece.Found.spares {p : Piece} (hp : p.Found) : p.Spares isSolid fun _ => true where
  token h := by
    cases p with
    | blanks run => rfl
    | _ => cases h
  line h := hp.newlines_eq_zero h
  error line e he := by
    cases p with
    | blanks run => cases he
    | _ => rfl

/-- To scan a source is to scan its pieces without the blanks. -/
theorem Scan.ofSource_eq_solid (source : String) :
    ofSource source = ofPieces 1 ((pieces source.toList).filter Piece.isSolid) := by
  rw [ofPieces_filter (fun p hp => (found_pieces _ p hp).spares) 1, List.filter_true]
  rfl

end LoxScript
