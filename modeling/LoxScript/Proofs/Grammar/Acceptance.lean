import LoxScript.Proofs.Grammar.Completeness
import LoxScript.Proofs.Grammar.Room
import LoxScript.Proofs.Grammar.Soundness

/-!
# A program is accepted exactly if it is derived

Reading a program never fails as a whole; it is accepted if no error is noted. Since errors that
were noted stay noted, a program is accepted exactly if every declaration of it is read without an
error, and what is read in this way is what the grammar derives.
-/

namespace LoxScript

open ParseState

/-! ## The tokens that are read -/

/-- An end mark behind a list does not change what comes before the first end mark. -/
theorem Cursor.takeWhile_concat {t : Token} (h : isProper t = false) (ts : List Token) :
    (ts ++ [t]).takeWhile isProper = ts.takeWhile isProper := by
  induction ts with
  | nil => simp [h]
  | cons u us ih =>
    rw [List.cons_append, List.takeWhile_cons, List.takeWhile_cons, ih]

/-- Up to the first end mark, the list of all tokens is the given list. -/
theorem Cursor.takeWhile_closed (ts : List Token) :
    (closed ts).takeWhile isProper = ts.takeWhile isProper := by
  unfold closed
  split
  · rfl
  · exact takeWhile_concat rfl ts

/-- What is to be read ends in front of the first end mark. -/
theorem rest_ofTokens (ts : List Token) :
    (ofTokens ts).cursor.rest = ts.takeWhile Cursor.isProper :=
  Cursor.takeWhile_closed ts

/-- The state before anything is read of a list of proper tokens and an end mark. -/
theorem ParseState.ofTokens_closed {ts : List Token} {z : Token}
    (hts : ∀ t ∈ ts, Cursor.isProper t = true) (hz : Cursor.isProper z = false) :
    ofTokens (ts ++ [z]) = ⟨⟨[], ts, z, z⟩, [], false⟩ := by
  have hkind : z.kind = .endMark := by simpa [Cursor.isProper] using hz
  have hclosed : Cursor.closed (ts ++ [z]) = ts ++ [z] := by
    unfold Cursor.closed
    rw [if_pos]
    simp [hkind]
  have hrest : (ts ++ [z]).takeWhile Cursor.isProper = ts := by
    rw [List.takeWhile_append_of_pos hts]
    simp [hz]
  have hfind : (ts ++ [z]).find? (fun t => !Cursor.isProper t) = some z := by
    rw [List.find?_append, List.find?_eq_none.mpr]
    · simp [hz]
    · intro t ht
      simp [hts t ht]
  unfold ofTokens Cursor.ofTokens
  simp only [hclosed, hrest, hfind, List.getLast?_append, List.getLast?_singleton, Option.getD_some]
  rfl

@[simp] theorem noted_ofTokens (ts : List Token) : (ofTokens ts).noted = [] := rfl

@[simp] theorem noted_recover (s : ParseState) (e : SyntaxError) :
    (s.recover e).noted = s.noted ++ [e] := by
  unfold recover synchronize Cursor.synchronize
  split <;> rfl

/-- Skipping never makes more tokens come. -/
theorem Cursor.length_skip (past rest : List Token) : (skip past rest).2.length ≤ rest.length := by
  induction rest generalizing past with
  | nil => exact Nat.le_refl _
  | cons t ts ih =>
    rw [skip]
    split
    · exact Nat.le_refl _
    · exact Nat.le_succ_of_le (ih _)

/-- To recover, the token to come is passed in any case. -/
theorem length_recover (s : ParseState) (e : SyntaxError) :
    (s.recover e).cursor.rest.length ≤ s.cursor.rest.length - 1 := by
  obtain ⟨⟨past, rest, stop, last⟩, noted, panicked⟩ := s
  cases rest with
  | nil => exact Nat.le_refl _
  | cons t ts => exact Cursor.length_skip _ _

namespace Parse

/-! ## The declarations of a program -/

section

variable {declaration : Parse Stmt} {s s₁ : ParseState}

theorem programOf_of_end (h : s.cursor.rest = []) (fuel : Nat) :
    programOf declaration fuel s = ([], s) := by
  cases fuel with
  | zero => rfl
  | succ fuel =>
    rw [programOf, if_pos]
    simp [Cursor.atEnd, h]

/-- One turn reads a declaration, or drops it and recovers; the remaining turns do the rest. -/
theorem programOf_succ (h : s.cursor.rest ≠ []) (fuel : Nat) :
    programOf declaration (fuel + 1) s =
      match declaration s with
      | .ok d s₁ => (d :: (programOf declaration fuel s₁).1, (programOf declaration fuel s₁).2)
      | .error e s₁ => programOf declaration fuel (s₁.recover e) := by
  have hend : ¬ s.cursor.atEnd = true := by simpa [Cursor.atEnd] using h
  refine (if_neg hend).trans ?_
  cases declaration s <;> rfl

/-- Reading a program drops none of the errors that were noted before it. -/
theorem noted_programOf (hd : Frames Reads declaration) (fuel : Nat) (s : ParseState) :
    s.noted <+: (programOf declaration fuel s).2.noted := by
  induction fuel generalizing s with
  | zero => exact List.prefix_rfl
  | succ fuel ih =>
    by_cases hr : s.cursor.rest = []
    · simp [programOf_of_end hr]
    · rw [programOf_succ hr]
      cases h : declaration s with
      | ok d s₁ => exact (hd.of_ok h).noted.trans (ih s₁)
      | error e s₁ =>
        have hread := (hd.of_error h).noted
        refine hread.trans (List.IsPrefix.trans ?_ (ih _))
        rw [noted_recover]
        exact List.prefix_append _ _

/-- If a program is read on without an error, its first declaration is, and so is the rest. -/
theorem exists_of_clean (hd : Frames Reads declaration) {fuel : Nat} (hr : s.cursor.rest ≠ [])
    (hn : (programOf declaration (fuel + 1) s).2.noted = s.noted) :
    ∃ d s₁, declaration s = .ok d s₁ ∧ s₁.noted = s.noted ∧
      (programOf declaration fuel s₁).2.noted = s₁.noted := by
  rw [programOf_succ hr] at hn
  cases h : declaration s with
  | ok d s₁ =>
    rw [h] at hn
    have hlater := noted_programOf hd fuel s₁
    have hclean : s₁.noted = s.noted := by
      rw [hn] at hlater
      exact hlater.eq_of_length_le (hd.of_ok h).noted.length_le
    exact ⟨d, s₁, rfl, hclean, hn.trans hclean.symm⟩
  | error e s₁ =>
    -- the error is noted for good
    rw [h] at hn
    have hle := (hd.of_error h).noted.length_le
    have hlater := (noted_programOf hd fuel (s₁.recover e)).length_le
    rw [hn, noted_recover, List.length_append, List.length_singleton] at hlater
    omega

/-- If no error is noted, the tokens derive the statements. -/
theorem derives_programOf {room fuel : Nat} (hf : s.cursor.rest.length ≤ fuel)
    (hn : (programOf (Parse.declaration room) fuel s).2.noted = s.noted) :
    Declarations s.cursor.rest (programOf (Parse.declaration room) fuel s).1 := by
  induction fuel generalizing s with
  | zero =>
    have hr : s.cursor.rest = [] := List.length_eq_zero_iff.mp (by omega)
    rw [hr]
    exact .nil
  | succ fuel ih =>
    by_cases hr : s.cursor.rest = []
    · rw [programOf_of_end hr, hr]
      exact .nil
    · obtain ⟨d, s₁, h, hclean, hlater⟩ :=
        exists_of_clean (composed_declaration room).frames hr hn
      obtain ⟨ts, hts, hd⟩ := (derives_declaration room).derives s d s₁ h hclean
      have hlt := consumes_declaration room s d s₁ h
      rw [programOf_succ hr, h, hts]
      exact .cons hd (ih (by omega) hlater)

/-- Tokens that derive statements, unless an "else" follows them, are read as these statements, and
then reading goes on with the tokens behind them; otherwise the depth is noted. -/
theorem programOf_of_declarations {room fuel : Nat} {ss : List Stmt} {ts rest : List Token}
    (h : Declarations ts ss) (hr : s.cursor.rest = ts ++ rest)
    (hrest : ∀ t, rest.head? = some t → t.kind ≠ .elseWord) (hf : s.cursor.rest.length ≤ fuel) :
    (∃ fuel', rest.length ≤ fuel' ∧
      (programOf (Parse.declaration room) fuel s).1 =
        ss ++ (programOf (Parse.declaration room) fuel' (s.behind ts.length)).1 ∧
      (programOf (Parse.declaration room) fuel s).2 =
        (programOf (Parse.declaration room) fuel' (s.behind ts.length)).2) ∨
      ∃ e ∈ (programOf (Parse.declaration room) fuel s).2.noted, e.cause = .tooDeep := by
  induction ss generalizing s fuel ts with
  | nil =>
    cases h
    rw [hr, List.nil_append] at hf
    exact .inl ⟨fuel, hf, rfl, rfl⟩
  | cons st ss ih =>
    cases h with
    | @cons us vs _ _ h hss =>
      obtain ⟨t, us', rfl, -⟩ := h.starts
      have hne : s.cursor.rest ≠ [] := by simp [hr]
      rw [hr, List.append_assoc, List.cons_append, List.length_cons] at hf
      obtain ⟨fuel, rfl⟩ : ∃ n, fuel = n + 1 := ⟨fuel - 1, by omega⟩
      rw [List.append_assoc] at hr
      have hbehind : (s.behind (t :: us').length).cursor.rest = vs ++ rest := behind_append hr
      have hpasses : s.Passes (t :: us') (s.behind (t :: us').length) := ⟨by rw [hr, hbehind], rfl⟩
      -- no declaration begins with an "else", so none is taken by the one before
      have hend := hss.starts rest hrest
      rw [← hbehind] at hend
      rw [programOf_succ hne]
      rcases finds_declaration room h hpasses hend with hfound | ⟨-, e, s₁, herror, he⟩
      · rw [hfound]
        have hfuel : (s.behind (t :: us').length).cursor.rest.length ≤ fuel := by
          rw [List.length_append] at hf
          rw [hbehind]
          omega
        rcases ih hss hbehind hfuel with ⟨fuel', hfuel', hlater, hlater'⟩ | hlater
        · rw [behind_behind, ← List.length_append] at hlater hlater'
          exact .inl ⟨fuel', hfuel', congrArg (st :: ·) hlater, hlater'⟩
        · exact .inr hlater
      · rw [herror]
        right
        refine ⟨e, ?_, he⟩
        refine (noted_programOf (composed_declaration room).frames fuel _).subset ?_
        simp

/-- With enough room no construct is too deep. -/
theorem shallow_programOf {room fuel : Nat} (h : 2 * s.cursor.rest.length + 3 ≤ room) :
    ∀ e ∈ (programOf (Parse.declaration room) fuel s).2.noted,
      e ∈ s.noted ∨ e.cause ≠ .tooDeep := by
  -- turn by turn; the tokens get fewer, so that the room stays large enough
  induction fuel generalizing s with
  | zero => exact fun e he => .inl he
  | succ fuel ih =>
    by_cases hr : s.cursor.rest = []
    · rw [programOf_of_end hr]
      exact fun e he => .inl he
    · have hshallow := shallow_declaration h s (Nat.le_refl _)
      rw [programOf_succ hr]
      obtain ⟨hreads, hbreaks, hnotes⟩ := hshallow
      cases hres : Parse.declaration room s with
      | ok d s₁ =>
        rw [hres] at hreads hnotes
        intro e he
        have hle := hreads.length_le
        simp only [endState_ok] at hle
        rcases ih (by omega) e he with he | he
        · exact hnotes e he
        · exact .inr he
      | error e' s₁ =>
        rw [hres] at hreads hnotes
        intro e he
        have hle := hreads.length_le
        have hrecover := length_recover s₁ e'
        simp only [endState_error] at hle
        rcases ih (by omega) e he with he | he
        · rw [noted_recover] at he
          rcases List.mem_append.mp he with he | he
          · exact hnotes e he
          · rw [List.mem_singleton.mp he]
            exact .inr (hbreaks e' s₁ hres)
        · exact .inr he

end

end Parse

namespace Program

/-- Whether reading the tokens found constructs that are nested too deeply for the room. -/
def TooDeep (room : Nat) (ts : List Token) : Prop :=
  ∃ e ∈ (ofTokens room ts).errors, e.cause = .tooDeep

/-- Enough room for any nesting that so many tokens can have. -/
theorem not_tooDeep_of_room {room : Nat} {ts : List Token} (h : 2 * ts.length + 3 ≤ room) :
    ¬ TooDeep room ts := by
  rintro ⟨e, hmem, he⟩
  have hle : (ParseState.ofTokens ts).cursor.rest.length ≤ ts.length := by
    rw [rest_ofTokens]
    exact (List.takeWhile_sublist _).length_le
  rcases Parse.shallow_programOf (s := .ofTokens ts) (by omega) e hmem with h | h
  · cases h
  · exact h he

/-- A list of tokens is read without an error, and as these statements, exactly if the tokens before
the first end mark derive the statements. This holds as long as no construct is nested too deeply,
and with twice as much room as there are tokens, and a little more, none is. -/
theorem accepts_iff_derives (room : Nat) (ts : List Token) :
    (¬ TooDeep room ts → ∀ ss : List Stmt,
      ((ofTokens room ts).errors = [] ∧ (ofTokens room ts).statements = ss ↔
        Declarations (ts.takeWhile Cursor.isProper) ss)) ∧
    (2 * ts.length + 3 ≤ room → ¬ TooDeep room ts) := by
  refine ⟨fun hdeep ss => ⟨?_, ?_⟩, not_tooDeep_of_room⟩
  · rintro ⟨herrors, rfl⟩
    rw [← rest_ofTokens]
    exact Parse.derives_programOf (Nat.le_refl _) herrors
  · intro h
    have hrest : (ParseState.ofTokens ts).cursor.rest = ts.takeWhile Cursor.isProper ++ [] := by
      rw [rest_ofTokens, List.append_nil]
    rcases Parse.programOf_of_declarations h hrest (by simp) (Nat.le_refl _) with
      ⟨fuel', -, hread, hread'⟩ | hread
    · have hend : ((ParseState.ofTokens ts).behind
          (ts.takeWhile Cursor.isProper).length).cursor.rest = [] := behind_append hrest
      rw [Parse.programOf_of_end hend] at hread hread'
      refine ⟨?_, hread.trans (List.append_nil ss)⟩
      show (Parse.program room (.ofTokens ts)).2.noted = []
      unfold Parse.program
      rw [hread', noted_behind, noted_ofTokens]
    · exact absurd hread hdeep

/-- The tokens of `if (a) if (b) print nil; else print true;`. -/
def nestedConditionals : List Token :=
  [⟨.ifWord, "if", .nil, 1⟩, ⟨.leftParen, "(", .nil, 1⟩, ⟨.identifier, "a", .nil, 1⟩,
   ⟨.rightParen, ")", .nil, 1⟩, ⟨.ifWord, "if", .nil, 1⟩, ⟨.leftParen, "(", .nil, 1⟩,
   ⟨.identifier, "b", .nil, 1⟩, ⟨.rightParen, ")", .nil, 1⟩, ⟨.printWord, "print", .nil, 1⟩,
   ⟨.nilWord, "nil", .nil, 1⟩, ⟨.semicolon, ";", .nil, 1⟩, ⟨.elseWord, "else", .nil, 1⟩,
   ⟨.printWord, "print", .nil, 1⟩, ⟨.trueWord, "true", .nil, 1⟩, ⟨.semicolon, ";", .nil, 1⟩]

/-- The "else" belongs to the inner conditional. -/
theorem nestedConditionals_derive :
    Declarations (nestedConditionals.takeWhile Cursor.isProper)
      [.ifThen (.read ⟨.identifier, "a", .nil, 1⟩ 1)
        (.ifElse (.read ⟨.identifier, "b", .nil, 1⟩ 1) (.print (.literal .nil 1) 1)
          (.print (.literal (.bool true) 1) 1) 1) 1] := by
  have h := accepts_iff_derives 40 nestedConditionals
  exact (h.1 (h.2 (by decide)) _).mp ⟨by rfl, by rfl⟩

end Program

end LoxScript
