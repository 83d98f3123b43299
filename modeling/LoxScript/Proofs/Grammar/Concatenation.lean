import LoxScript.Proofs.Grammar.Prefixes
import LoxScript.Proofs.Grammar.Settling

/-!
# Programs in a row

If no declaration of a program is dropped, then the program is read in the same way when another one
follows it, and the other one is read as if it stood alone, whatever is wrong with it: the
statements and the errors of the two are put in a row (`Program.ofTokens_concatenation`). The only
exception is a second program that begins with an "else", which a conditional at the end of the
first one would take.

The two halves of the argument are that no declaration looks behind its last token, except for an
"else" (`closes_declaration`), and that reading goes by the tokens to come alone, also where it
recovers from an error (`program_facing`).
-/

namespace LoxScript

open ParseState

namespace Parse

section

variable {room : Nat} {s s₁ : ParseState}

/-! ## Reading a program, without counting turns -/

theorem program_of_end (h : s.cursor.rest = []) : program room s = ([], s) :=
  programOf_of_end h _

/-- A declaration that is read comes first, and the others follow. -/
theorem program_of_ok {d : Stmt} (hr : s.cursor.rest ≠ []) (h : declaration room s = .ok d s₁) :
    program room s = (d :: (program room s₁).1, (program room s₁).2) := by
  have hlt := consumes_declaration room s d s₁ h
  obtain ⟨n, hn⟩ : ∃ n, s.cursor.rest.length = n + 1 := ⟨_, (Nat.sub_add_cancel (by omega)).symm⟩
  have hgranted : programOf (declaration room) n s₁ = program room s₁ :=
    programOf_granted (by omega) (Nat.le_refl _)
  unfold program
  rw [hn, programOf_succ hr, h]
  simp only [hgranted]
  rfl

/-- Recovering passes at least one token. -/
theorem length_recover_lt {e : SyntaxError} (hr : s.cursor.rest ≠ [])
    (h : declaration room s = .error e s₁) :
    (s₁.recover e).cursor.rest.length < s.cursor.rest.length := by
  have hpos : 0 < s.cursor.rest.length := List.length_pos_iff.mpr hr
  have hle := ((composed_declaration room).frames.of_error h).length_le
  have hrecover := length_recover s₁ e
  omega

/-- A declaration that is not read is dropped, and reading goes on behind the boundary. -/
theorem program_of_error {e : SyntaxError} (hr : s.cursor.rest ≠ [])
    (h : declaration room s = .error e s₁) : program room s = program room (s₁.recover e) := by
  have hlt := length_recover_lt hr h
  obtain ⟨n, hn⟩ : ∃ n, s.cursor.rest.length = n + 1 := ⟨_, (Nat.sub_add_cancel (by omega)).symm⟩
  have hgranted : programOf (declaration room) n (s₁.recover e) = program room (s₁.recover e) :=
    programOf_granted (by omega) (Nat.le_refl _)
  rw [← hgranted, program, hn, programOf_succ hr, h]

/-- Induction along the declarations of a program. -/
theorem program_induction {motive : ParseState → Prop} (room : Nat)
    (finished : ∀ s, s.cursor.rest = [] → motive s)
    (read : ∀ s d s₁, s.cursor.rest ≠ [] → declaration room s = .ok d s₁ → motive s₁ → motive s)
    (dropped : ∀ s e s₁, s.cursor.rest ≠ [] → declaration room s = .error e s₁ →
      motive (s₁.recover e) → motive s) (s : ParseState) : motive s := by
  induction hn : s.cursor.rest.length using Nat.strongRecOn generalizing s with
  | ind n ih =>
    by_cases hr : s.cursor.rest = []
    · exact finished s hr
    · cases h : declaration room s with
      | ok d s₁ =>
        have hlt := consumes_declaration room s d s₁ h
        exact read s d s₁ hr h (ih _ (by omega) s₁ rfl)
      | error e s₁ =>
        have hlt := length_recover_lt hr h
        exact dropped s e s₁ hr h (ih _ (by omega) _ rfl)

/-- That a declaration was dropped is never forgotten. -/
theorem panicked_program (h : s.panicked = true) : (program room s).2.panicked = true := by
  induction s using program_induction room with
  | finished s hr => rwa [program_of_end hr]
  | read s d s₁ hr hd ih =>
    rw [program_of_ok hr hd]
    exact ih (((composed_declaration room).frames.of_ok hd).panicked.trans h)
  | dropped s e s₁ hr hd ih =>
    rw [program_of_error hr hd]
    exact ih rfl

/-- If no declaration is dropped, then the first one is read. -/
theorem exists_of_kept (hr : s.cursor.rest ≠ []) (h : (program room s).2.panicked = false) :
    ∃ d s₁, declaration room s = .ok d s₁ ∧ (program room s₁).2.panicked = false := by
  cases hd : declaration room s with
  | ok d s₁ =>
    rw [program_of_ok hr hd] at h
    exact ⟨d, s₁, rfl, h⟩
  | error e s₁ =>
    rw [program_of_error hr hd, panicked_program rfl] at h
    cases h

/-! ## What a declaration does not begin with -/

variable {u : Token} {us : List Token}

/-- No operand starts with such a token, and nothing is passed in looking for one. -/
theorem unary_of_other (hr : s.cursor.rest = u :: us) (hu : u.kind.startsPhrase = false)
    (room : Nat) : ∃ e, unary room s = .error e s := by
  cases room with
  | zero => exact ⟨_, rfl⟩
  | succ room =>
    have hnone : accept [.bang, .minus] s = .ok none s := by
      refine accept_of_other fun v hv hmem => ?_
      rw [hr] at hv
      cases hv
      simp only [List.mem_cons, List.not_mem_nil, or_false] at hmem
      rcases hmem with h | h <;> rw [h] at hu <;> cases hu
    refine ⟨_, (bind_of_ok hnone).trans (primaryOf_of_other fun v hv => ?_)⟩
    rw [hr] at hv
    cases hv
    constructor
    · by_contra hatom
      obtain ⟨e, he⟩ := Option.ne_none_iff_exists'.mp hatom
      obtain ⟨t, ts, hts, ht⟩ := (Phrase.atom he).starts
      cases hts
      rw [hu] at ht
      cases ht
    · intro hk
      rw [hk] at hu
      cases hu

theorem expression_of_other (hr : s.cursor.rest = u :: us) (hu : u.kind.startsPhrase = false)
    (room : Nat) : ∃ e, expression room s = .error e s := by
  cases room with
  | zero => exact ⟨_, rfl⟩
  | succ room =>
    obtain ⟨e, he⟩ := unary_of_other hr hu room
    have htiers : tiers (unary room) 1 s = .error e s := by
      rw [tiers_eq]
      exact bind_of_error he
    exact ⟨e, bind_of_error htiers⟩

/-- No statement starts with such a token. -/
theorem statement_of_other (hr : s.cursor.rest = u :: us) (hu : u.kind.startsSentence = false)
    (room : Nat) : ∃ e, statement room s = .error e s := by
  cases room with
  | zero => exact ⟨_, rfl⟩
  | succ room =>
    obtain ⟨hphrase, hwords⟩ := Bool.or_eq_false_iff.mp hu
    have hnone : accept [.forWord, .ifWord, .printWord, .whileWord, .leftBrace] s = .ok none s := by
      refine accept_of_other fun v hv hmem => ?_
      rw [hr] at hv
      cases hv
      simp only [List.mem_cons, List.not_mem_nil, or_false] at hmem
      rcases hmem with h | h | h | h | h <;> rw [h] at hwords <;> cases hwords
    obtain ⟨e, he⟩ := expression_of_other hr hphrase room
    have hexpression : expressionStatement (expression room) s = .error e s := bind_of_error he
    exact ⟨e, (bind_of_ok hnone).trans hexpression⟩

theorem declaration_of_other (hr : s.cursor.rest = u :: us) (hu : u.kind.startsSentence = false)
    (hvar : u.kind ≠ .varWord) : ∃ e, declaration room s = .error e s := by
  have hnone : accept [.varWord] s = .ok none s := by
    refine accept_of_other fun v hv => ?_
    rw [hr] at hv
    cases hv
    simpa using hvar
  obtain ⟨e, he⟩ := statement_of_other hr hu room
  exact ⟨e, (bind_of_ok hnone).trans he⟩

/-- No declaration begins with an "else". -/
theorem declaration_of_else (hr : s.cursor.rest = u :: us) (hu : u.kind = .elseWord) :
    ∃ e, declaration room s = .error e s :=
  declaration_of_other hr (by rw [hu]; rfl) (by rw [hu]; nofun)

/-- A program of which no declaration is dropped does not begin with an "else". -/
theorem noElse_of_kept (h : (program room s).2.panicked = false) : NoElse s.cursor.rest := by
  intro u hu hk
  obtain ⟨us, hr⟩ := List.head?_eq_some_iff.mp hu
  obtain ⟨d, s₁, hd, -⟩ := exists_of_kept (by simp [hr]) h
  obtain ⟨e, he⟩ : ∃ e, declaration room s = .error e s := declaration_of_else hr hk
  rw [he] at hd
  cases hd

end

end Parse

/-! ## What is to come -/

/-- At both states the same tokens are to come, up to the same end. -/
structure ParseState.Ahead (s t : ParseState) : Prop where
  rest : t.cursor.rest = s.cursor.rest
  stop : t.cursor.stop = s.cursor.stop

/-- At both states the same tokens are to come. -/
structure ParseState.Facing (s t : ParseState) : Prop where
  rest : t.cursor.rest = s.cursor.rest
  stop : t.cursor.stop = s.cursor.stop
  panicked : t.panicked = s.panicked

namespace ParseState.Ahead

variable {s t : ParseState}

/-- Passing tokens and noting errors leaves one state ahead of the other. -/
theorem after (h : Ahead s t) (n : Nat) (es : List SyntaxError) :
    Ahead (s.after n es) (t.after n es) where
  rest := by rw [rest_after, rest_after, h.rest]
  stop := by
    have hstop : ∀ r : ParseState, (r.after n es).cursor.stop = r.cursor.stop :=
      fun r => stop_behind r n
    rw [hstop, hstop, h.stop]

/-- Both states are at the same token. -/
theorem current (h : Ahead s t) : t.cursor.current = s.cursor.current := by
  unfold Cursor.current
  rw [h.rest, h.stop]

/-- Recovering leaves one state ahead of the other. -/
theorem recover (h : Ahead s t) (e : SyntaxError) : Ahead (s.recover e) (t.recover e) where
  rest := by rw [rest_recover, rest_recover, h.rest]
  stop := by rw [stop_recover, stop_recover, h.stop]

end ParseState.Ahead

namespace Parse

variable {room : Nat} {s t : ParseState}

/-- A declaration breaks off in the same way at another state, if the token that is blamed comes
there as well. -/
theorem declaration_breaks {s₁ : ParseState} {e : SyntaxError} {us rest : List Token}
    {es : List SyntaxError} (hd : declaration room s = .error e s₁) (hs : s.Leads us es s₁)
    (ht : t.cursor.rest = us ++ rest) (hrest : rest.head? = s₁.cursor.rest.head?)
    (hcurrent : (t.after us.length es).cursor.current = s₁.cursor.current) :
    declaration room t = .error e (t.after us.length es) := by
  have hd' := (composed_declaration room).isLocal.error hd hs ht hrest
  have hblames := (composed_declaration room).foresees.blames s e s₁ hd
  rwa [hcurrent, ← hblames] at hd'

/-- Reading goes by the tokens to come alone: neither the errors that were noted before nor a
declaration that was dropped before make a difference. -/
theorem program_ahead (room : Nat) (h : Ahead s t) :
    (program room t).1 = (program room s).1 ∧
      (∃ b, (program room s).2.panicked = (s.panicked || b) ∧
        (program room t).2.panicked = (t.panicked || b)) ∧
      ∃ es, (program room s).2.noted = s.noted ++ es ∧
        (program room t).2.noted = t.noted ++ es := by
  have hlocal := (composed_declaration room).isLocal
  -- one case for a declaration that is read, and one for a declaration that is dropped
  induction s using program_induction room generalizing t with
  | finished s hr =>
    have hr' : t.cursor.rest = [] := h.rest.trans hr
    rw [program_of_end hr, program_of_end hr']
    exact ⟨rfl, ⟨false, by simp⟩, [], by simp⟩
  | read s d s₁ hr hd ih =>
    have hr' : t.cursor.rest ≠ [] := by rwa [h.rest]
    obtain ⟨us, es, hs⟩ := (hlocal.reads.of_ok hd).leads
    have ht : t.cursor.rest = us ++ s₁.cursor.rest := h.rest.trans hs.1
    have hd' := hlocal.ok hd hs ht rfl
    obtain ⟨-, rfl⟩ := hs
    rw [program_of_ok hr hd, program_of_ok hr' hd']
    obtain ⟨hstatements, hpanicked, fs, hnoted, hnoted'⟩ := ih (h.after us.length es)
    refine ⟨congrArg (d :: ·) hstatements, hpanicked, es ++ fs, ?_, ?_⟩
    · rw [← List.append_assoc]
      exact hnoted
    · rw [← List.append_assoc]
      exact hnoted'
  | dropped s e s₁ hr hd ih =>
    have hr' : t.cursor.rest ≠ [] := by rwa [h.rest]
    obtain ⟨us, es, hs⟩ := (hlocal.reads.of_error hd).leads
    have ht : t.cursor.rest = us ++ s₁.cursor.rest := h.rest.trans hs.1
    have hahead : Ahead s₁ (t.after us.length es) := by
      rw [hs.2]
      exact h.after us.length es
    have hd' := declaration_breaks hd hs ht rfl hahead.current
    rw [program_of_error hr hd, program_of_error hr' hd']
    obtain ⟨hstatements, -, fs, hnoted, hnoted'⟩ := ih (hahead.recover e)
    refine ⟨hstatements, ⟨true, ?_, ?_⟩, es ++ [e] ++ fs, ?_, ?_⟩
    · rw [panicked_program rfl, Bool.or_true]
    · rw [panicked_program rfl, Bool.or_true]
    · rw [hnoted, noted_recover, hs.noted]
      simp
    · rw [hnoted', noted_recover]
      simp [ParseState.after]

/-- What follows is read in the same way, and the same errors are noted. -/
theorem program_facing (room : Nat) (h : Facing s t) :
    (program room t).1 = (program room s).1 ∧
      (program room t).2.panicked = (program room s).2.panicked ∧
      ∃ es, (program room s).2.noted = s.noted ++ es ∧
        (program room t).2.noted = t.noted ++ es := by
  obtain ⟨hstatements, ⟨b, hs, ht⟩, hnoted⟩ := program_ahead room ⟨h.rest, h.stop⟩
  exact ⟨hstatements, by rw [hs, ht, h.panicked], hnoted⟩

/-- If no declaration is dropped, further tokens behind the last one change nothing, and reading
goes on with these. -/
theorem program_append {us : List Token} (ht : t.cursor.rest = s.cursor.rest ++ us)
    (helse : NoElse us) (h : (program room s).2.panicked = false) :
    ∃ es, (program room s).2.noted = s.noted ++ es ∧
      program room t =
        ((program room s).1 ++ (program room (t.after s.cursor.rest.length es)).1,
          (program room (t.after s.cursor.rest.length es)).2) := by
  have hcloses := closes_declaration room
  induction s using program_induction room generalizing t with
  | finished s hr =>
    refine ⟨[], by simp [program_of_end hr], ?_⟩
    rw [program_of_end hr, hr, List.length_nil, after_zero]
    rfl
  | read s d s₁ hr hd ih =>
    have hr' : t.cursor.rest ≠ [] := by simp [ht, hr]
    rw [program_of_ok hr hd] at h ⊢
    obtain ⟨vs, es, hs⟩ := (hcloses.isLocal.reads.of_ok hd).leads
    rw [hs.1, List.append_assoc] at ht
    have hd' : declaration room t = .ok d (t.after vs.length es) := by
      -- only a declaration that ends with the list could be changed by what follows
      cases hr₁ : s₁.cursor.rest with
      | nil =>
        rw [hr₁, List.nil_append] at ht
        exact hcloses.keeps s d s₁ vs es t us hd hs ht helse
      | cons u ws =>
        refine hcloses.isLocal.ok hd hs ht ?_
        rw [hr₁]
        rfl
    have hlater := ih (rest_after_append ht es) h
    obtain ⟨fs, hnoted, hlater⟩ := hlater
    rw [after_after] at hlater
    refine ⟨es ++ fs, ?_, ?_⟩
    · rw [hnoted, hs.noted, List.append_assoc]
    · rw [program_of_ok hr' hd', hlater, hs.1, List.length_append]
      rfl
  | dropped s e s₁ hr hd ih =>
    rw [program_of_error hr hd, panicked_program rfl] at h
    cases h

end Parse

namespace Program

variable {room : Nat} {ts us : List Token} {y z : Token}

/-- Errors that are added set the flag, too. -/
theorem failed_of_errors {p q : Program} {es : List SyntaxError} (h : p.errors = q.errors ++ es) :
    p.failed = (q.failed || !es.isEmpty) := by
  unfold failed
  rw [h]
  cases q.errors <;> rfl

/-- The first program is read as before, and the second one as if it stood alone. -/
theorem parts_of_concatenation (hts : ∀ t ∈ ts, Cursor.isProper t = true)
    (hus : ∀ t ∈ us, Cursor.isProper t = true) (hy : Cursor.isProper y = false)
    (hz : Cursor.isProper z = false) (helse : Parse.NoElse us)
    (h : (ofTokens room (ts ++ [y])).panicked = false) :
    (ofTokens room (ts ++ us ++ [z])).statements =
        (ofTokens room (ts ++ [y])).statements ++ (ofTokens room (us ++ [z])).statements ∧
      (ofTokens room (ts ++ us ++ [z])).errors =
        (ofTokens room (ts ++ [y])).errors ++ (ofTokens room (us ++ [z])).errors ∧
      (ofTokens room (ts ++ us ++ [z])).panicked = (ofTokens room (us ++ [z])).panicked := by
  have hlong := ofTokens_closed (Cursor.isProper_append hts hus) hz
  have hshort := ofTokens_closed hts hy
  have hrest := ofTokens_closed hus hz
  have happend : (ParseState.ofTokens (ts ++ us ++ [z])).cursor.rest =
      (ParseState.ofTokens (ts ++ [y])).cursor.rest ++ us := by
    rw [hlong, hshort]
  obtain ⟨es, hnoted, hread⟩ := Parse.program_append happend helse h
  -- behind the first program, the second one is to come
  have hfacing : Facing (ParseState.ofTokens (us ++ [z]))
      ((ParseState.ofTokens (ts ++ us ++ [z])).after
        (ParseState.ofTokens (ts ++ [y])).cursor.rest.length es) := by
    rw [hlong, hshort, hrest, ParseState.after, behind_length]
    exact ⟨rfl, rfl, rfl⟩
  obtain ⟨hstatements, hpanicked, fs, hnoted₂, hnoted₁₂⟩ := Parse.program_facing room hfacing
  rw [noted_ofTokens, List.nil_append] at hnoted hnoted₂
  have hnoted₁₂ : _ = es ++ fs := hnoted₁₂
  unfold ofTokens
  rw [hread]
  simp only [hstatements, hpanicked, hnoted, hnoted₂, hnoted₁₂, and_self]

/-- If no declaration of the first program is dropped, then reading the two programs in a row gives
the statements and the reports of both, and the second one is read as it is by itself. -/
theorem ofTokens_concatenation (hts : ∀ t ∈ ts, Cursor.isProper t = true)
    (hus : ∀ t ∈ us, Cursor.isProper t = true) (hy : Cursor.isProper y = false)
    (hz : Cursor.isProper z = false)
    (h : (ofTokens room (ts ++ [y])).panicked = false)
    (helse : ∀ t, us.head? = some t → t.kind ≠ .elseWord) :
    (ofTokens room (ts ++ us ++ [z])).statements =
        (ofTokens room (ts ++ [y])).statements ++ (ofTokens room (us ++ [z])).statements ∧
      (ofTokens room (ts ++ us ++ [z])).diagnostics =
        (ofTokens room (ts ++ [y])).diagnostics ++ (ofTokens room (us ++ [z])).diagnostics ∧
      (ofTokens room (ts ++ us ++ [z])).panicked = (ofTokens room (us ++ [z])).panicked ∧
      (ofTokens room (ts ++ us ++ [z])).failed =
        ((ofTokens room (ts ++ [y])).failed || (ofTokens room (us ++ [z])).failed) := by
  obtain ⟨hstatements, herrors, hpanicked⟩ := parts_of_concatenation hts hus hy hz helse h
  refine ⟨hstatements, ?_, hpanicked, ?_⟩
  · simp only [diagnostics, herrors, List.map_append]
  · exact failed_of_errors herrors

/-- The tokens of `1 = 2;`, which notes an error but drops nothing. -/
def assignedNumber : List Token :=
  [⟨.number, "1", .number 1, 1⟩, ⟨.equal, "=", .nil, 1⟩, ⟨.number, "2", .number 2, 1⟩,
   ⟨.semicolon, ";", .nil, 1⟩]

/-- The tokens of `); print nil;`, of which the first declaration is dropped. -/
def strayParenthesis : List Token :=
  [⟨.rightParen, ")", .nil, 2⟩, ⟨.semicolon, ";", .nil, 2⟩, ⟨.printWord, "print", .nil, 2⟩,
   ⟨.nilWord, "nil", .nil, 2⟩, ⟨.semicolon, ";", .nil, 2⟩]

theorem assignedNumber_then_strayParenthesis :
    (ofTokens 40 (assignedNumber ++ [Token.endAt 1])).panicked = false ∧
      (ofTokens 40 (strayParenthesis ++ [Token.endAt 2])).panicked = true ∧
      (ofTokens 40 (assignedNumber ++ strayParenthesis ++ [Token.endAt 2])).panicked = true ∧
      (ofTokens 40 (assignedNumber ++ strayParenthesis ++ [Token.endAt 2])).diagnostics =
        [⟨1, " at '='", "Invalid assignment target."⟩, ⟨2, " at ')'", "Expect expression."⟩] := by
  have hkept : (ofTokens 40 (assignedNumber ++ [Token.endAt 1])).panicked = false := by decide
  have hdropped : (ofTokens 40 (strayParenthesis ++ [Token.endAt 2])).panicked = true := by decide
  have hproper : ∀ t ∈ assignedNumber, Cursor.isProper t = true := by decide
  have hproper' : ∀ t ∈ strayParenthesis, Cursor.isProper t = true := by decide
  obtain ⟨-, hdiagnostics, hpanicked, -⟩ := ofTokens_concatenation hproper hproper' (y := .endAt 1)
    (z := .endAt 2) rfl rfl hkept (by decide)
  refine ⟨hkept, hdropped, hpanicked.trans hdropped, hdiagnostics.trans ?_⟩
  decide

end Program

end LoxScript
