import LoxScript.Proofs.Grammar.Concatenation

/-!
# Nothing behind the end mark matters

A list of tokens may go on behind its first end mark. The cursor never gets there; all that it keeps
of those tokens is the very last one, which counts as the token read last as long as nothing is read.
No parsing step looks at it there: the climb passes an operator before it asks for it, and the token
at which a declaration breaks off is passed before the next boundary is looked for. So neither a
parsing step (`Parse.Composed.ending`) nor a whole program (`Parse.program_ending`) depends on the
last token, and whatever stands behind the end mark, the program is the same
(`Program.ofTokens_behind_mark`).
-/

namespace LoxScript

namespace ParseState

/-- The same place in a list with another last token. -/
def ending (s : ParseState) (last : Token) : ParseState :=
  { s with cursor := { s.cursor with last := last } }

theorem within_last (s : ParseState) (last : Token) :
    s.within ⟨[], [], s.cursor.stop, last⟩ = s.ending last := by
  simp only [ending, within, List.append_nil]

theorem ending_recover (s : ParseState) (e : SyntaxError) (last : Token) :
    (s.ending last).recover e = (s.recover e).ending last := by
  have hrecover := recover_within (x := ⟨[], [], s.cursor.stop, last⟩) rfl s e
  have hstop : s.cursor.stop = (s.recover e).cursor.stop := (stop_recover s e).symm
  rwa [within_last, hstop, within_last] at hrecover

/-- Before anything is read, a list that goes on behind its end mark differs from the one that ends
there in its last token alone. -/
theorem ofTokens_append {ts : List Token} {z : Token} (us : List Token)
    (hts : ∀ t ∈ ts, Cursor.isProper t = true) (hz : Cursor.isProper z = false) :
    ∃ last, ofTokens (ts ++ [z] ++ us) = (ofTokens (ts ++ [z])).ending last := by
  have hrest : ∀ vs, (ts ++ [z] ++ vs).takeWhile Cursor.isProper = ts := by
    intro vs
    rw [List.append_assoc, List.takeWhile_append_of_pos hts]
    simp [hz]
  have hfind : ∀ vs, (ts ++ [z] ++ vs).find? (fun t => !Cursor.isProper t) = some z := by
    intro vs
    rw [List.append_assoc, List.find?_append, List.find?_eq_none.mpr]
    · simp [hz]
    · intro t ht
      simp [hts t ht]
  -- the list that is read is the given one, perhaps with one more end mark
  obtain ⟨vs, hvs⟩ : ∃ vs, Cursor.closed (ts ++ [z] ++ us) = ts ++ [z] ++ vs := by
    unfold Cursor.closed
    split
    · exact ⟨us, rfl⟩
    · exact ⟨us ++ [Cursor.closing (ts ++ [z] ++ us)], List.append_assoc _ _ _⟩
  refine ⟨(ts ++ [z] ++ vs).getLast?.getD (Cursor.closing (ts ++ [z] ++ us)), ?_⟩
  rw [ofTokens_closed hts hz, ofTokens, Cursor.ofTokens]
  simp only [hvs, hrest, hfind, Option.getD_some, ending]

end ParseState

open ParseState

namespace Parse

variable {α : Type}

/-- No parsing step depends on the last token of the list. -/
theorem Composed.ending {p : Parse α} (h : Composed p) (s : ParseState) (last : Token) :
    p (s.ending last) = mapState (·.ending last) (p s) := by
  have hstop : s.cursor.stop = (endState (p s)).cursor.stop := (h.frames s).stop.symm
  have hwithin := h.foresees.within ⟨[], [], s.cursor.stop, last⟩ s (.inr ⟨rfl, hstop⟩)
  rw [within_last] at hwithin
  rw [hwithin]
  cases hp : p s with
  | ok a s₁ =>
    rw [hp] at hstop
    rw [mapState_ok, mapState_ok, hstop, endState_ok, within_last]
  | error e s₁ =>
    rw [hp] at hstop
    rw [mapState_error, mapState_error, hstop, endState_error, within_last]

/-- Nor does a program, with all the places where it recovers. -/
theorem program_ending (room : Nat) (s : ParseState) (last : Token) :
    program room (s.ending last) = ((program room s).1, (program room s).2.ending last) := by
  have hdeclaration := (composed_declaration room).ending
  induction s using program_induction room with
  | finished s hr =>
    have hr' : (s.ending last).cursor.rest = [] := hr
    rw [program_of_end hr, program_of_end hr']
  | read s d s₁ hr hd ih =>
    have hr' : (s.ending last).cursor.rest ≠ [] := hr
    have hd' := hdeclaration s last
    rw [hd, mapState_ok] at hd'
    rw [program_of_ok hr hd, program_of_ok hr' hd', ih]
  | dropped s e s₁ hr hd ih =>
    have hr' : (s.ending last).cursor.rest ≠ [] := hr
    have hd' := hdeclaration s last
    rw [hd, mapState_error] at hd'
    rw [program_of_error hr hd, program_of_error hr' hd', ending_recover, ih]

end Parse

namespace Program

/-- Whatever follows the first end mark, the list is read as if it ended there: the statements, the
errors, the dropping of declarations and the position at the end are the same. And from no state does
the last token of the list make a difference, be it for a declaration, for the place where reading
goes on after an error, or for all declarations up to the end. -/
theorem ofTokens_behind_mark (room : Nat) {ts : List Token} {z : Token} (us : List Token)
    (hts : ∀ t ∈ ts, Cursor.isProper t = true) (hz : Cursor.isProper z = false) :
    ofTokens room (ts ++ [z] ++ us) = ofTokens room (ts ++ [z]) ∧
      ∀ (s : ParseState) (last : Token),
        Parse.declaration room (s.ending last) =
            mapState (·.ending last) (Parse.declaration room s) ∧
          (∀ e, (s.ending last).recover e = (s.recover e).ending last) ∧
          Parse.program room (s.ending last) =
            ((Parse.program room s).1, (Parse.program room s).2.ending last) := by
  constructor
  · obtain ⟨last, hstart⟩ := ParseState.ofTokens_append us hts hz
    have hprogram := Parse.program_ending room (ParseState.ofTokens (ts ++ [z])) last
    unfold ofTokens
    rw [hstart, hprogram]
    rfl
  · intro s last
    exact ⟨(Parse.composed_declaration room).ending s last, fun e => ending_recover s e last,
      Parse.program_ending room s last⟩

/-- Reading breaks off at the very first token, with a boundary as the last token of the list. -/
theorem strayParenthesis_behind_mark :
    (∀ t ∈ strayParenthesis, Cursor.isProper t = true) ∧
      Cursor.isProper (Token.endAt 2) = false ∧
      ofTokens 40 (strayParenthesis ++ [Token.endAt 2] ++ assignedNumber) =
        ofTokens 40 (strayParenthesis ++ [Token.endAt 2]) ∧
      (ofTokens 40 (strayParenthesis ++ [Token.endAt 2] ++ assignedNumber)).diagnostics =
        [⟨2, " at ')'", "Expect expression."⟩] ∧
      (ofTokens 40 (strayParenthesis ++ [Token.endAt 2] ++ assignedNumber)).position = 5 := by
  have hproper : ∀ t ∈ strayParenthesis, Cursor.isProper t = true := by decide
  have hsame := (ofTokens_behind_mark 40 assignedNumber hproper (z := .endAt 2) rfl).1
  refine ⟨hproper, rfl, hsame, ?_, ?_⟩
  · rw [hsame]
    decide
  · rw [hsame]
    decide

end Program

end LoxScript
