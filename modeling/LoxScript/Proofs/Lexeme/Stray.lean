import LoxScript.Proofs.Lexeme.Blanks

/-!
# Stray characters act as blanks

A stray character is reported and left out. This module compares a source with the same source in which
every stray character is replaced by a blank. None of the other pieces changes: what ends before a stray
character ends before a blank as well (`EndsBefore.blanked`). So both sources are scanned as the same
tokens, on the same lines, and the one error that can remain is a text that is not closed
(`ofSource_cleared`).
-/

namespace LoxScript

namespace Piece

/-- The piece is a single character that starts no token. -/
def isStray : Piece → Bool
  | stray _ => true
  | _ => false

/-- The characters of a piece, with a stray character replaced by a blank. -/
def cleared : Piece → List Char
  | stray _ => [' ']
  | p => p.chars

end Piece

/-- The source with every stray character replaced by a blank. -/
def cleared (source : String) : String :=
  String.ofList ((pieces source.toList).flatMap Piece.cleared)

/-- The error is that of a text that is not closed. -/
def LexicalError.isOpen (e : LexicalError) : Bool := e.cause == .openText

namespace Scan

/-- The errors about stray characters. -/
def strays (scan : Scan) : List LexicalError := scan.errors.filter fun e => !e.isOpen

/-- The error about a text that is not closed, if there is one. -/
def unclosed (scan : Scan) : List LexicalError := scan.errors.filter LexicalError.isOpen

end Scan

/-! ## Replacing characters by blanks -/

/-- The second character is the first one, or a blank in place of it. A line feed stays. -/
def Blanked (c c' : Char) : Prop := c' = c ∨ c' = ' ' ∧ c ≠ '\n'

theorem blanked_refl (cs : List Char) : List.Forall₂ Blanked cs cs := by
  induction cs with
  | nil => exact .nil
  | cons c cs ih => exact .cons (.inl rfl) ih

section

variable {q : Char → Bool} {left left' : List Char}

/-- What stops a run stops it also if stray characters become blanks. -/
theorem Stops.blanked (h : Stops q left) (hq : q ' ' = false)
    (hleft : List.Forall₂ Blanked left left') : Stops q left' := by
  cases hleft with
  | nil => exact stops_nil
  | cons hc _ =>
    rcases hc with rfl | ⟨rfl, -⟩
    · exact stops_cons.mpr (stops_cons.mp h)
    · exact stops_cons.mpr hq

/-- A comment still ends at the end of its line. -/
theorem Stops.blanked_remark (h : Stops isRemark left)
    (hleft : List.Forall₂ Blanked left left') : Stops isRemark left' := by
  cases hleft with
  | nil => exact stops_nil
  | cons hc _ =>
    have hline := stops_cons.mp h
    rcases hc with rfl | ⟨-, hne⟩
    · exact stops_cons.mpr hline
    · exact absurd (by simpa [isRemark] using hline) hne

theorem fraction_blanked (h : Piece.Pattern.fraction left = [])
    (hleft : List.Forall₂ Blanked left left') : Piece.Pattern.fraction left' = [] := by
  refine Piece.fraction_eq_nil fun d' more' heq => ?_
  subst heq
  obtain ⟨c, rest, hc, hrest, rfl⟩ := List.forall₂_cons_right_iff.mp hleft
  obtain ⟨d, more, hd, -, rfl⟩ := List.forall₂_cons_right_iff.mp hrest
  obtain rfl : '.' = c := by
    rcases hc with hc | ⟨hc, -⟩
    · exact hc
    · cases hc
  rcases hd with rfl | ⟨rfl, -⟩
  · intro hdigit
    rw [Piece.Pattern.fraction, List.takeWhile_cons_of_pos hdigit] at h
    cases h
  · decide

end

/-- What a piece ends before may be replaced by blanks, character by character, unless the piece is a
run of blanks itself. -/
theorem Piece.EndsBefore.blanked {p : Piece} {left left' : List Char} (h : p.EndsBefore left)
    (hsolid : p.isSolid = true) (hleft : List.Forall₂ Blanked left left') : p.EndsBefore left' := by
  cases p with
  | blanks run => cases hsolid
  | comment body => exact Stops.blanked_remark h hleft
  | openText inner =>
    cases h
    cases hleft
    rfl
  | numeral whole fraction =>
    exact ⟨Stops.blanked h.1 (by decide) hleft, fun hnil => fraction_blanked (h.2 hnil) hleft⟩
  | word letters => exact Stops.blanked h (by decide) hleft
  | sign chars kind => exact Stops.blanked h (goesOn_blank chars) hleft
  | newline | text _ | stray _ => trivial

/-! ## Pieces -/

/-- Nothing is replaced in a lexical piece. -/
theorem Piece.cleared_of_lexical {p : Piece} (hp : p.Lexical) : p.cleared = p.chars := by
  cases hp <;> rfl

theorem Piece.Found.blanked {p : Piece} (hp : p.Found) : List.Forall₂ Blanked p.chars p.cleared := by
  cases hp with
  | stray hline hblank => exact .cons (.inr ⟨rfl, hline⟩) .nil
  | openText hinner => exact blanked_refl _
  | lexical hp =>
    rw [cleared_of_lexical hp]
    exact blanked_refl _

theorem blanked_flatMap {ps : List Piece} (h : ∀ p ∈ ps, p.Found) :
    List.Forall₂ Blanked (ps.flatMap Piece.chars) (ps.flatMap Piece.cleared) := by
  induction ps with
  | nil => exact .nil
  | cons p ps ih =>
    obtain ⟨hp, hps⟩ := List.forall_mem_cons.mp h
    exact List.rel_append hp.blanked (ih hps)

/-- A source with its stray characters replaced differs by blanks only. -/
theorem blanked_cleared (cs : List Char) :
    List.Forall₂ Blanked cs ((pieces cs).flatMap Piece.cleared) := by
  have hflat := blanked_flatMap (found_pieces cs)
  rwa [flatMap_chars_pieces] at hflat

/-- A piece with the text behind it replaced by blanks is still a piece. A run of blanks may become longer,
and a stray character becomes one. -/
theorem solid_pieces_behind {p : Piece} {left left' : List Char} (hp : p.Found)
    (hends : p.EndsBefore left) (hleft : List.Forall₂ Blanked left left') :
    (pieces (p.cleared ++ left')).filter Piece.isSolid =
      ([p].filter fun p => p.isSolid && !p.isStray) ++ (pieces left').filter Piece.isSolid := by
  cases hp with
  | stray hline hblank => exact solid_pieces_cons (by decide) left'
  | @openText inner hinner =>
    cases hends
    cases hleft
    show (pieces (Text.quotationMark :: (inner ++ []))).filter Piece.isSolid = _
    rw [List.append_nil, pieces_cons, Piece.first_openText hinner]
    rfl
  | lexical hp =>
    cases hsolid : p.isSolid with
    | true =>
      have hstray : p.isStray = false := by
        cases hp <;> rfl
      rw [Piece.cleared_of_lexical hp, pieces_of_endsBefore hp (hends.blanked hsolid hleft),
        List.filter_cons_of_pos hsolid, List.filter_cons_of_pos (by simp [hsolid, hstray])]
      rfl
    | false =>
      cases hp with
      | @blanks run hne hrun =>
        exact solid_pieces_append (fun c hc => Piece.isGap_iff.mpr (hrun c hc)) left'
      | _ => cases hsolid

/-- Apart from blanks, the pieces stay the same, but there are no stray characters left. -/
theorem solid_pieces_cleared (cs : List Char) :
    (pieces ((pieces cs).flatMap Piece.cleared)).filter Piece.isSolid =
      (pieces cs).filter fun p => p.isSolid && !p.isStray := by
  fun_induction pieces cs with
  | case1 =>
    show (pieces []).filter Piece.isSolid = []
    rw [pieces]
    rfl
  | case2 c rest ih =>
    -- the cleared text is cut where the text was, since its first piece ends before blanks as well
    have hbehind := solid_pieces_behind (Piece.found_first c rest) (Piece.endsBefore_first c rest)
      (blanked_cleared (Piece.first c rest).2)
    rw [List.flatMap_cons, hbehind, ih, ← List.filter_append]
    rfl

/-! ## Scanning -/

/-- Stray characters can be left out as well, if their errors are. -/
theorem Piece.Found.spares_stray {p : Piece} (hp : p.Found) :
    p.Spares (fun p => p.isSolid && !p.isStray) LexicalError.isOpen where
  token h := by
    cases p with
    | blanks _ | stray _ => rfl
    | _ => cases h
  line h := by
    cases hp with
    | stray hline hblank =>
      exact List.count_eq_zero.mpr fun hmem => hline (List.mem_singleton.mp hmem).symm
    | openText hinner => cases h
    | lexical hp =>
      refine (Found.lexical hp).newlines_eq_zero ?_
      cases hp <;> first | rfl | cases h
  error line e he := by
    cases p with
    | openText _ | stray _ =>
      cases he
      rfl
    | _ => cases he

namespace Scan

/-- The cleared source is scanned as the same tokens, and without the errors about stray characters. -/
theorem ofSource_cleared (source : String) :
    ofSource (cleared source) = ⟨(ofSource source).tokens, (ofSource source).unclosed⟩ := by
  rw [ofSource_eq_solid, cleared, String.toList_ofList, solid_pieces_cleared]
  exact ofPieces_filter (fun p hp => (found_pieces _ p hp).spares_stray) 1

/-- The errors about stray characters come first. -/
theorem errorsOf_strays_unclosed (cs : List Char) (line : Int) :
    errorsOf line (pieces cs) =
      ((errorsOf line (pieces cs)).filter fun e => !e.isOpen) ++
        (errorsOf line (pieces cs)).filter LexicalError.isOpen := by
  fun_induction pieces cs generalizing line with
  | case1 => rfl
  | case2 c rest ih =>
    have hends := Piece.endsBefore_first c rest
    have hlater := ih (line + Text.newlines (Piece.first c rest).1.chars)
    rw [errorsOf]
    generalize (Piece.first c rest).1 = p at hends hlater ⊢
    cases p with
    | openText inner =>
      -- nothing is left behind it, so it is the last piece of all
      have hleft : (Piece.first c rest).2 = [] := hends
      rw [hleft, pieces]
      rfl
    | stray c => exact congrArg (_ :: ·) hlater
    | _ => exact hlater

/-- The errors of a source are its stray characters and, last, an open text. -/
theorem errors_strays_unclosed (source : String) :
    (ofSource source).errors = (ofSource source).strays ++ (ofSource source).unclosed := by
  simp only [strays, unclosed, ofSource, ofPieces_eq]
  exact errorsOf_strays_unclosed source.toList 1

end Scan

/-! ## The characters that are replaced -/

/-- The characters that differ in two texts, side by side. -/
def replaced (cs cs' : List Char) : List (Char × Char) := (cs.zip cs').filter fun c => c.1 != c.2

theorem replaced_append {as as' : List Char} (h : as.length = as'.length) (bs bs' : List Char) :
    replaced (as ++ bs) (as' ++ bs') = replaced as as' ++ replaced bs bs' := by
  rw [replaced, List.zip_append h, List.filter_append]
  rfl

theorem replaced_self (cs : List Char) : replaced cs cs = [] := by
  induction cs with
  | nil => rfl
  | cons c cs ih => simpa [replaced] using ih

/-- A character is replaced by one blank. -/
theorem Piece.length_cleared (p : Piece) : p.chars.length = p.cleared.length := by
  cases p <;> rfl

theorem Piece.Found.replaced_cleared {p : Piece} (hp : p.Found) (line : Int) :
    (replaced p.chars p.cleared).map
        (fun c => (LexicalCause.strayCharacter (String.singleton c.1), c.2)) =
      ((p.error? line).toList.filter fun e => !e.isOpen).map fun e => (e.cause, ' ') := by
  cases hp with
  | @stray c hline hblank =>
    have hreplaced : replaced [c] [' '] = [(c, ' ')] :=
      List.filter_cons_of_pos (by simpa using hblank)
    exact congrArg (List.map _) hreplaced
  | openText hinner => exact congrArg (List.map _) (replaced_self _)
  | lexical hp =>
    have herror : p.error? line = none := by
      cases hp <;> rfl
    rw [cleared_of_lexical hp, replaced_self, herror]
    rfl

/-- What is replaced is what is reported: the stray characters, in order, each of them by a blank. -/
theorem replaced_cleared (cs : List Char) (line : Int) :
    (replaced cs ((pieces cs).flatMap Piece.cleared)).map
        (fun c => (LexicalCause.strayCharacter (String.singleton c.1), c.2)) =
      ((Scan.errorsOf line (pieces cs)).filter fun e => !e.isOpen).map fun e => (e.cause, ' ') := by
  fun_induction pieces cs generalizing line with
  | case1 => rfl
  | case2 c rest ih =>
    have hlater := ih (line + Text.newlines (Piece.first c rest).1.chars)
    have hhere := (Piece.found_first c rest).replaced_cleared
      (line + Text.newlines (Piece.first c rest).1.chars)
    rw [Scan.errorsOf, List.flatMap_cons, ← Piece.first_chars c rest,
      replaced_append (Piece.first c rest).1.length_cleared, List.map_append, List.filter_append,
      List.map_append, hhere, hlater]

end LoxScript
