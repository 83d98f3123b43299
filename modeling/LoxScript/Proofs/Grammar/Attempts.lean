import Mathlib.Data.List.TakeWhile
import LoxScript.Proofs.Grammar.Blame

/-!
# The passes of the loop over declarations

A program is read in passes: each of them reads a declaration or drops one (`Parse.Attempt`), and
after finitely many of them the end is reached (`Parse.Attempts`). Every pass moves on, even if the
declaration breaks off at its first token or is nested too deeply, since to recover a token is passed
in any case (`Attempt.moves`).

The number of errors is bounded by the number of tokens passed. A pass can note several errors: one
for each assignment to something that is no variable, and one more if it breaks off. The former are
paid for by the equals signs, and the latter is paid for by the token that is passed to recover, or
at the end by the token that the declaration began with, which is no equals sign.
-/

namespace LoxScript

open ParseState

/-! ## Errors and equals signs -/

/-- No more errors are noted in between than equals signs are passed. -/
def ParseState.NotesPerSign (s s' : ParseState) : Prop :=
  ∃ us es, s.Leads us es s' ∧ es.length ≤ us.countP (·.kind = .equal)

instance : IsPreorder ParseState NotesPerSign where
  refl s := ⟨[], [], .refl s, Nat.le_refl 0⟩
  trans s₁ s₂ s₃ h₁ h₂ := by
    obtain ⟨us, es, hs₁, hes⟩ := h₁
    obtain ⟨vs, fs, hs₂, hfs⟩ := h₂
    refine ⟨us ++ vs, es ++ fs, hs₁.trans hs₂, ?_⟩
    rw [List.length_append, List.countP_append]
    omega

namespace ParseState

variable {s s' : ParseState} {us : List Token} {es : List SyntaxError}

theorem leads_note (s : ParseState) (e : SyntaxError) : s.Leads [] [e] (s.note e) := ⟨rfl, rfl⟩

/-- Passing a token notes nothing, so it cannot use up more signs than it passes. -/
theorem notesPerSign_advance (s : ParseState) : NotesPerSign s s.advance := by
  cases hr : s.cursor.rest with
  | nil =>
    have hstays : s.advance = s := by
      simp [advance, Cursor.advance, hr]
    rw [hstays]
    exact refl_of NotesPerSign s
  | cons u us => exact ⟨[u], [], leads_advance hr, Nat.zero_le _⟩

/-- Between the two states the tokens `us` are passed and the errors `es` are noted. -/
structure Covers (s : ParseState) (us : List Token) (es : List SyntaxError) (s' : ParseState) :
    Prop where
  rest : s.cursor.rest = us ++ s'.cursor.rest
  position : s'.cursor.position = s.cursor.position + us.length
  noted : s'.noted = s.noted ++ es

/-- A state that is led to covers the tokens that were passed and the errors that were noted. -/
theorem Leads.covers (h : s.Leads us es s') : s.Covers us es s' where
  rest := h.1
  position := by
    obtain ⟨hr, rfl⟩ := h
    generalize (s.after us.length es).cursor.rest = ws at hr
    obtain ⟨⟨past, rest, stop, last⟩, noted, panicked⟩ := s
    obtain rfl : rest = us ++ ws := hr
    rw [after, behind_length]
    simp [Cursor.position, Nat.add_comm]
  noted := h.noted

theorem Covers.trans {s₁ : ParseState} {vs : List Token} {fs : List SyntaxError}
    (h₁ : s.Covers us es s₁) (h₂ : s₁.Covers vs fs s') : s.Covers (us ++ vs) (es ++ fs) s' where
  rest := by rw [h₁.rest, h₂.rest, List.append_assoc]
  position := by rw [h₂.position, h₁.position, List.length_append, Nat.add_assoc]
  noted := by rw [h₂.noted, h₁.noted, List.append_assoc]

end ParseState

namespace Parse

variable {α : Type}

/-- The only error that is noted by itself is paid for by the sign in front of it. -/
theorem notesPerSign_assignmentOf {target value : Parse Expr} (ht : Frames NotesPerSign target)
    (hv : Frames NotesPerSign value) : Frames NotesPerSign (assignmentOf target value) := by
  refine ht.bind fun left s => ?_
  rcases next_cases (·.kind ∈ [TokenKind.equal]) s.cursor.rest with ⟨sign, us, hr, hk⟩ | hother
  · rw [bind_of_ok (accept_of_mem hr hk)]
    have hsign : s.Leads [sign] [] s.advance := leads_advance hr
    have hcount : ∀ vs : List Token, ([sign] ++ vs).countP (·.kind = .equal) =
        vs.countP (·.kind = .equal) + 1 := fun vs =>
      List.countP_cons_of_pos (by simpa using List.mem_singleton.mp hk)
    dsimp only
    cases hvalue : value s.advance with
    | error e s₁ =>
      obtain ⟨vs, es, hs, hle⟩ := hv.of_error hvalue
      rw [bind_of_error hvalue]
      refine ⟨_, _, hsign.trans hs, ?_⟩
      rw [hcount, List.nil_append]
      omega
    | ok e s₁ =>
      obtain ⟨vs, es, hs, hle⟩ := hv.of_ok hvalue
      rw [bind_of_ok hvalue]
      split
      · refine ⟨_, _, hsign.trans hs, ?_⟩
        rw [hcount, List.nil_append]
        omega
      · -- the equals sign pays for the error
        refine ⟨_, _, (hsign.trans hs).trans (leads_note s₁ _), ?_⟩
        rw [List.append_nil, hcount, List.nil_append, List.length_append, List.length_singleton]
        omega
  · rw [bind_of_ok (accept_of_other hother)]
    exact refl_of NotesPerSign s

/-- Every error that is noted without breaking anything off belongs to an equals sign. -/
theorem Composed.notesPerSign {p : Parse α} (h : Composed p) : Frames NotesPerSign p :=
  h.frames_of notesPerSign_advance notesPerSign_assignmentOf

end Parse

/-! ## Recovering -/

/-- Skipping splits the tokens to come in those that are passed and the rest. -/
theorem Cursor.exists_skip (past us : List Token) :
    ∃ vs ws, us = vs ++ ws ∧ skip past us = (vs.reverse ++ past, ws) := by
  induction us generalizing past with
  | nil => exact ⟨[], [], rfl, rfl⟩
  | cons u us ih =>
    rw [skip]
    split
    · exact ⟨[], u :: us, rfl, rfl⟩
    · obtain ⟨vs, ws, rfl, hskip⟩ := ih (u :: past)
      refine ⟨u :: vs, ws, rfl, ?_⟩
      rw [hskip, List.reverse_cons, List.append_assoc]
      rfl

/-- To get to the next boundary at least one token is passed, unless the end is reached. -/
theorem ParseState.exists_leads_synchronize (s : ParseState) :
    ∃ us, s.Leads us [] s.synchronize ∧ (us = [] → s.cursor.rest = []) := by
  obtain ⟨⟨past, rest, stop, last⟩, noted, panicked⟩ := s
  cases rest with
  | nil => exact ⟨[], .refl _, fun _ => rfl⟩
  | cons u us =>
    obtain ⟨vs, ws, rfl, hskip⟩ := Cursor.exists_skip (u :: past) us
    refine ⟨u :: vs, ⟨?_, ?_⟩, nofun⟩
    · simp [synchronize, Cursor.synchronize, hskip]
    · have hbehind := behind_length past (u :: vs) ws stop last noted panicked
      rw [List.cons_append] at hbehind
      rw [after, hbehind]
      simp [synchronize, Cursor.synchronize, hskip]

namespace Parse

variable {room : Nat} {s s₁ s' : ParseState} {o : Option Stmt} {os : List (Option Stmt)}

/-! ## One pass -/

/-- One pass of the loop: a declaration is read, or it is dropped, and the loop goes on behind the
next boundary. -/
inductive Attempt (room : Nat) : ParseState → Option Stmt → ParseState → Prop where
  | read {s s₁ : ParseState} {d : Stmt} (hr : s.cursor.rest ≠ [])
      (hd : declaration room s = .ok d s₁) : Attempt room s (some d) s₁
  | dropped {s s₁ : ParseState} {e : SyntaxError} (hr : s.cursor.rest ≠ [])
      (hd : declaration room s = .error e s₁) : Attempt room s none (s₁.recover e)

/-- A declaration that breaks off at the end began with a token that is no equals sign. -/
theorem countP_of_end {e : SyntaxError} {us : List Token} {es : List SyntaxError}
    (hr : s.cursor.rest ≠ []) (hd : declaration room s = .error e s₁) (hs : s.Leads us es s₁)
    (hr₁ : s₁.cursor.rest = []) : us.countP (·.kind = .equal) < us.length := by
  cases us with
  | nil =>
    rw [hs.1, hr₁] at hr
    exact absurd rfl hr
  | cons u us =>
    have hne : u.kind ≠ .equal := by
      intro hk
      obtain ⟨e', he⟩ : ∃ e', declaration room s = .error e' s :=
        declaration_of_other hs.1 (by rw [hk]; rfl) (by rw [hk]; nofun)
      rw [he] at hd
      cases hd
      exact hr hr₁
    rw [List.countP_cons_of_neg (by simpa using hne), List.length_cons]
    exact Nat.lt_succ_of_le List.countP_le_length

/-- Every pass of the loop passes a token, and notes at most as many errors as it passes tokens. -/
theorem Attempt.covers (h : Attempt room s o s') :
    ∃ us es, s.Covers us es s' ∧ us ≠ [] ∧ es.length ≤ us.length := by
  have hsigns := (composed_declaration room).notesPerSign
  cases h with
  | read hr hd =>
    obtain ⟨us, es, hs, hle⟩ := hsigns.of_ok hd
    have hcount : us.countP (·.kind = .equal) ≤ us.length := List.countP_le_length
    refine ⟨us, es, hs.covers, ?_, by omega⟩
    rintro rfl
    have hlt := consumes_declaration room s _ s' hd
    rw [hs.1, List.nil_append] at hlt
    exact Nat.lt_irrefl _ hlt
  | @dropped s₁ e hr hd =>
    obtain ⟨us, es, hs, hle⟩ := hsigns.of_error hd
    obtain ⟨vs, hboundary, hstays⟩ := exists_leads_synchronize (s₁.note e)
    have hleads := (hs.trans (leads_note s₁ e)).trans hboundary
    have hcount : us.countP (·.kind = .equal) ≤ us.length := List.countP_le_length
    refine ⟨_, _, ⟨hleads.covers.rest, hleads.covers.position, hleads.covers.noted⟩, ?_, ?_⟩
    · intro hnil
      obtain ⟨hus, hvs⟩ := List.append_eq_nil_iff.mp hnil
      have hend : s₁.cursor.rest = [] := hstays hvs
      rw [List.append_nil] at hus
      rw [hs.1, hus, hend] at hr
      exact hr rfl
    · simp only [List.length_append, List.length_nil, List.length_singleton]
      -- the error of the break is paid for by a token that is skipped, if there is one
      cases vs with
      | cons v vs =>
        rw [List.length_cons]
        omega
      | nil =>
        have hlt := countP_of_end hr hd hs (hstays rfl)
        omega

/-- Every pass of the loop moves on. -/
theorem Attempt.moves (h : Attempt room s o s') : s.cursor.position < s'.cursor.position := by
  obtain ⟨us, es, hs, hne, -⟩ := h.covers
  have hpos := List.length_pos_iff.mpr hne
  rw [hs.position]
  omega

/-- A pass that drops its declaration leaves a mark. -/
theorem Attempt.panicked (h : Attempt room s o s') :
    s'.panicked = (s.panicked || o.isNone) := by
  cases h with
  | read hr hd => simpa using ((composed_declaration room).frames.of_ok hd).panicked
  | dropped hr hd => simp [recover]

/-! ## All passes -/

/-- Passes of the loop up to the end, and what they read. -/
inductive Attempts (room : Nat) : ParseState → List (Option Stmt) → ParseState → Prop where
  | finished {s : ParseState} (hr : s.cursor.rest = []) : Attempts room s [] s
  | next {s s₁ s' : ParseState} {o : Option Stmt} {os : List (Option Stmt)}
      (h : Attempt room s o s₁) (hs : Attempts room s₁ os s') : Attempts room s (o :: os) s'

/-- Reading a program comes to its end after finitely many passes. -/
theorem exists_attempts (room : Nat) (s : ParseState) :
    ∃ os s', Attempts room s os s' ∧ program room s = (os.filterMap id, s') := by
  induction s using program_induction room with
  | finished s hr => exact ⟨[], s, .finished hr, program_of_end hr⟩
  | read s d s₁ hr hd ih =>
    obtain ⟨os, s', hs, hprogram⟩ := ih
    refine ⟨some d :: os, s', .next (.read hr hd) hs, ?_⟩
    rw [program_of_ok hr hd, hprogram]
    rfl
  | dropped s e s₁ hr hd ih =>
    obtain ⟨os, s', hs, hprogram⟩ := ih
    refine ⟨none :: os, s', .next (.dropped hr hd) hs, ?_⟩
    rw [program_of_error hr hd, hprogram]
    rfl

/-- Altogether all tokens are passed, and at most as many errors are noted. -/
theorem Attempts.covers (h : Attempts room s os s') :
    ∃ es, s.Covers s.cursor.rest es s' ∧ es.length ≤ s.cursor.rest.length := by
  induction h with
  | @finished s hr =>
    refine ⟨[], ?_, Nat.zero_le _⟩
    rw [hr]
    exact (Leads.refl s).covers
  | @next s s₁ s' o os h hs ih =>
    obtain ⟨us, es, hcovers, -, hle⟩ := h.covers
    obtain ⟨fs, hlater, hle'⟩ := ih
    have hall := hcovers.trans hlater
    rw [← hcovers.rest] at hall
    refine ⟨es ++ fs, hall, ?_⟩
    rw [hcovers.rest, List.length_append, List.length_append]
    omega

/-- A declaration was dropped exactly if one of the attempts had no result. -/
theorem Attempts.panicked_iff (h : Attempts room s os s') :
    s'.panicked = true ↔ s.panicked = true ∨ none ∈ os := by
  induction h with
  | finished hr => simp
  | @next s s₁ s' o os h hs ih =>
    rw [ih, h.panicked]
    cases o <;> simp

/-! ## Errors at the end -/

/-- Of the errors that a pass notes only the last one can blame the end, and then the pass drops its
declaration and reaches the end. -/
theorem Attempt.ending (h : Attempt room s o s')
    (hproper : ∀ t ∈ s.cursor.rest, Cursor.isProper t = true) :
    ∃ es last, s'.noted = s.noted ++ es ++ last.toList ∧
      (∀ f ∈ es, f.token.kind ≠ .endMark) ∧ (last ≠ none → o = none ∧ s'.cursor.rest = []) := by
  have htargets := (composed_declaration room).notesTargets
  have hsigns : ∀ es : List SyntaxError,
      (∀ f ∈ es, f.cause = .invalidTarget ∧ f.token.kind = .equal) →
        ∀ f ∈ es, f.token.kind ≠ .endMark := by
    intro es hes f hf
    rw [(hes f hf).2]
    nofun
  cases h with
  | read hr hd =>
    obtain ⟨es, hnoted, hes⟩ := htargets.of_ok hd
    exact ⟨es, none, by simpa using hnoted, hsigns es hes, by simp⟩
  | @dropped s₁ e hr hd =>
    obtain ⟨es, hnoted, hes⟩ := htargets.of_error hd
    have hblames := (composed_declaration room).foresees.blames s e s₁ hd
    -- the end is blamed only if no token is left, and then it is the last error
    cases hr₁ : s₁.cursor.rest with
    | nil =>
      have hle := length_recover s₁ e
      rw [hr₁] at hle
      refine ⟨es, some e, by simp [hnoted], hsigns es hes, fun _ => ⟨rfl, ?_⟩⟩
      exact List.length_eq_zero_iff.mp (Nat.le_zero.mp hle)
    | cons u us =>
      obtain ⟨vs, fs, hs⟩ := ((composed_declaration room).frames.of_error hd).leads
      have hu : Cursor.isProper u = true := hproper u (by simp [hs.1, hr₁])
      have hkind : e.token.kind ≠ .endMark := by
        rw [hblames, Cursor.current, hr₁]
        simpa [Cursor.isProper] using hu
      refine ⟨es ++ [e], none, by simp [hnoted], fun f hf => ?_, by simp⟩
      rcases List.mem_append.mp hf with hf | hf
      · exact hsigns es hes f hf
      · rwa [List.mem_singleton.mp hf]

/-- So of all errors only the last one can blame the end, and then a declaration is dropped. -/
theorem Attempts.ending (h : Attempts room s os s')
    (hproper : ∀ t ∈ s.cursor.rest, Cursor.isProper t = true) :
    ∃ es last, s'.noted = s.noted ++ es ++ last.toList ∧
      (∀ f ∈ es, f.token.kind ≠ .endMark) ∧ (last ≠ none → none ∈ os) := by
  induction h with
  | finished hr => exact ⟨[], none, by simp, by simp, by simp⟩
  | @next s s₁ s' o os h hs ih =>
    obtain ⟨us, _, hcovers, -⟩ := h.covers
    obtain ⟨es, last, hnoted, hes, hlast⟩ := h.ending hproper
    have hproper₁ : ∀ t ∈ s₁.cursor.rest, Cursor.isProper t = true := fun t ht =>
      hproper t (by rw [hcovers.rest]; exact List.mem_append_right us ht)
    obtain ⟨fs, last', hnoted', hfs, hlast'⟩ := ih hproper₁
    cases last with
    | none =>
      refine ⟨es ++ fs, last', ?_, fun f hf => ?_, fun h => List.mem_cons_of_mem o (hlast' h)⟩
      · rw [hnoted', hnoted, Option.toList_none, List.append_nil, List.append_assoc s.noted]
      · rcases List.mem_append.mp hf with hf | hf
        · exact hes f hf
        · exact hfs f hf
    | some e =>
      obtain ⟨rfl, hr₁⟩ := hlast (by simp)
      cases hs with
      | finished => exact ⟨es, some e, hnoted, hes, fun _ => List.mem_cons_self⟩
      | next h => cases h <;> contradiction

end Parse

/-! ## Reading a list of tokens -/

/-- The tokens in front of the first end mark are as many as its index says. -/
theorem Cursor.length_takeWhile_isProper (ts : List Token) :
    (ts.takeWhile isProper).length = ts.findIdx (·.kind = .endMark) := by
  induction ts with
  | nil => rfl
  | cons t ts ih =>
    rw [List.takeWhile_cons, List.findIdx_cons]
    by_cases hk : t.kind = .endMark
    · simp [isProper, hk]
    · simp [isProper, hk, ih]

namespace Program

open Parse

/-- Whatever the tokens are, reading them ends, moves on all the time, and reports few errors.
- The program is what finitely many passes of the loop read, the last of which reaches the end, and
  it counts as broken off exactly if one of the passes drops its declaration.
- The position at the end is that of the first end mark, or behind the last token.
- There are at most as many reports as there are tokens in front of it, and the program counts as
  failed exactly if there are any.
- Every pass moves on, wherever it begins.
- No loop is ever cut short: turns beyond the number of tokens to come change nothing, neither over
  the declarations of a program, nor over those of a block, nor over operators. -/
theorem reading_ends (room : Nat) (ts : List Token) :
    (∃ os s, Attempts room (.ofTokens ts) os s ∧
      ofTokens room ts = ⟨os.filterMap id, s.noted, s.panicked, s.cursor.position⟩ ∧
      ((ofTokens room ts).panicked = true ↔ none ∈ os)) ∧
    (ofTokens room ts).position = ts.findIdx (·.kind = .endMark) ∧
    (ofTokens room ts).diagnostics.length ≤ ts.findIdx (·.kind = .endMark) ∧
    ((ofTokens room ts).failed = true ↔ (ofTokens room ts).diagnostics ≠ []) ∧
    (∀ s o s', Attempt room s o s' → s.cursor.position < s'.cursor.position) ∧
    ∀ n s, s.cursor.rest.length ≤ n →
      programOf (declaration room) n s = program room s ∧
      declarations (declaration room) n s = declarationsAll (declaration room) s ∧
      ∀ least left, climb (unary room) n least left s = climbAll (unary room) least left s := by
  obtain ⟨os, s, hattempts, hprogram⟩ := exists_attempts room (.ofTokens ts)
  have hread : ofTokens room ts = ⟨os.filterMap id, s.noted, s.panicked, s.cursor.position⟩ := by
    rw [ofTokens, hprogram]
  obtain ⟨es, hcovers, hle⟩ := hattempts.covers
  have hlength : (ParseState.ofTokens ts).cursor.rest.length = ts.findIdx (·.kind = .endMark) := by
    rw [rest_ofTokens, Cursor.length_takeWhile_isProper]
  refine ⟨⟨os, s, hattempts, hread, ?_⟩, ?_, ?_, ?_, fun _ _ _ h => h.moves, ?_⟩
  · rw [hread]
    simpa [ParseState.ofTokens] using hattempts.panicked_iff
  · rw [hread, hcovers.position, hlength]
    exact Nat.zero_add _
  · have hnoted : s.noted = es := hcovers.noted
    rw [diagnostics, List.length_map, hread, ← hlength]
    exact (congrArg List.length hnoted).le.trans hle
  · simp [failed, diagnostics]
  · intro n s hn
    exact ⟨programOf_granted hn (Nat.le_refl _),
      declarations_granted (consumes_declaration room) hn (Nat.le_refl _),
      fun _ _ => climb_granted (composed_unary room) hn (Nat.le_refl _)⟩

/-- Only the last error of a program can blame the end, and then a declaration is dropped. -/
theorem errors_ending (room : Nat) (ts : List Token) :
    ∃ es last, (ofTokens room ts).errors = es ++ last.toList ∧
      (∀ f ∈ es, f.token.kind ≠ .endMark) ∧
      (last ≠ none → (ofTokens room ts).panicked = true) := by
  obtain ⟨os, s, hattempts, hprogram⟩ := exists_attempts room (.ofTokens ts)
  have hproper : ∀ t ∈ (ParseState.ofTokens ts).cursor.rest, Cursor.isProper t = true := by
    rw [rest_ofTokens]
    exact fun t ht => List.mem_takeWhile_imp ht
  obtain ⟨es, last, hnoted, hes, hlast⟩ := hattempts.ending hproper
  rw [ofTokens, hprogram]
  exact ⟨es, last, hnoted, hes, fun h => hattempts.panicked_iff.mpr (.inr (hlast h))⟩

end Program

end LoxScript
