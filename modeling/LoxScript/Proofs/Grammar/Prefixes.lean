import LoxScript.Proofs.Grammar.Acceptance
import LoxScript.Proofs.Grammar.Lookahead

/-!
# The beginning of a program

If a program is read without an error, then the beginning of it is either read without an error as
well, or all that is wrong with it is that it ends too early (`errors_of_beginning`). In the first
case what follows is again a program that is read without an error, provided that it does not begin
with an "else", and the statements of the whole program are those of the two parts
(`statements_of_parts`).
-/

namespace LoxScript

open ParseState

theorem ParseState.stop_recover (s : ParseState) (e : SyntaxError) :
    (s.recover e).cursor.stop = s.cursor.stop := by
  unfold recover synchronize Cursor.synchronize
  split <;> rfl

/-- Behind a token, only that token and the next one decide where to stop. -/
theorem Cursor.skip_cons (t u : Token) (past us : List Token) :
    skip (t :: past) (u :: us) =
      if (t.kind == .semicolon || u.kind.startsStatement) = true then (t :: past, u :: us)
      else skip (u :: t :: past) us := rfl

/-- What was read long before does not matter to skipping. -/
theorem Cursor.skip_append (t : Token) (past before us : List Token) :
    skip (t :: past ++ before) us =
      ((skip (t :: past) us).1 ++ before, (skip (t :: past) us).2) := by
  induction us generalizing t past with
  | nil => rfl
  | cons u us ih =>
    rw [List.cons_append, skip_cons, skip_cons]
    split
    · rfl
    · exact ih u (t :: past)

/-- What is left of the tokens to come behind the next boundary. The first one is passed in any
case. -/
def Cursor.resume : List Token → List Token
  | [] => []
  | t :: ts => (skip [t] ts).2

/-- Where to go on is clear from the tokens to come: the one that is passed in any case is all that is
looked back at. -/
theorem Cursor.rest_synchronize (c : Cursor) : c.synchronize.rest = resume c.rest := by
  obtain ⟨past, rest, stop, last⟩ := c
  cases rest with
  | nil => rfl
  | cons t ts =>
    have happend : skip (t :: past) ts = ((skip [t] ts).1 ++ past, (skip [t] ts).2) :=
      skip_append t [] past ts
    change (skip (t :: past) ts).2 = (skip [t] ts).2
    rw [happend]

/-- After recovering, the tokens behind the boundary come. -/
theorem ParseState.rest_recover (s : ParseState) (e : SyntaxError) :
    (s.recover e).cursor.rest = Cursor.resume s.cursor.rest :=
  Cursor.rest_synchronize s.cursor

/-- Tokens in front of the list make no difference when reading recovers from an error. -/
theorem ParseState.recover_within {x : Surroundings} (hafter : x.after = []) (s : ParseState)
    (e : SyntaxError) : (s.within x).recover e = (s.recover e).within x := by
  obtain ⟨before, after, stop, last⟩ := x
  obtain rfl : after = [] := hafter
  obtain ⟨⟨past, rest, stop', last'⟩, noted, panicked⟩ := s
  cases rest with
  | nil => rfl
  | cons t ts =>
    simp only [recover, synchronize, note, within, Cursor.synchronize, List.append_nil]
    rw [← List.cons_append, Cursor.skip_append]

namespace Parse

section

variable {room : Nat} {s : ParseState} {x : Surroundings}

/-- Turns beyond the number of tokens to come change nothing. -/
theorem programOf_granted {fuel fuel' : Nat} (h : s.cursor.rest.length ≤ fuel)
    (h' : s.cursor.rest.length ≤ fuel') :
    programOf (declaration room) fuel s = programOf (declaration room) fuel' s := by
  induction fuel generalizing fuel' s with
  | zero =>
    have hr : s.cursor.rest = [] := List.length_eq_zero_iff.mp (by omega)
    rw [programOf_of_end hr, programOf_of_end hr]
  | succ fuel ih =>
    by_cases hr : s.cursor.rest = []
    · rw [programOf_of_end hr, programOf_of_end hr]
    · have hpos : 0 < s.cursor.rest.length := List.length_pos_iff.mpr hr
      obtain ⟨fuel', rfl⟩ : ∃ n, fuel' = n + 1 := ⟨fuel' - 1, by omega⟩
      rw [programOf_succ hr, programOf_succ hr]
      cases hd : declaration room s with
      | ok d s₁ =>
        have hlt := consumes_declaration room s d s₁ hd
        have hlater :
            programOf (declaration room) fuel s₁ = programOf (declaration room) fuel' s₁ :=
          ih (by omega) (by omega)
        simp only [hlater]
      | error e s₁ =>
        have hle := ((composed_declaration room).frames.of_error hd).length_le
        have hrecover := length_recover s₁ e
        exact ih (by omega) (by omega)

/-- Tokens in front of the list make no difference. -/
theorem programOf_within (hafter : x.after = []) (hstop : x.stop = s.cursor.stop) (fuel : Nat) :
    programOf (declaration room) fuel (s.within x) =
      ((programOf (declaration room) fuel s).1,
        (programOf (declaration room) fuel s).2.within x) := by
  have hforesees := (composed_declaration room).foresees
  induction fuel generalizing s with
  | zero => rfl
  | succ fuel ih =>
    by_cases hr : s.cursor.rest = []
    · have hr' : (s.within x).cursor.rest = [] := by simp [hr, hafter]
      rw [programOf_of_end hr, programOf_of_end hr']
    · have hr' : (s.within x).cursor.rest ≠ [] := by simp [hr]
      have hread := hforesees.reads s
      have hwithin := hforesees.within x s (.inr ⟨hafter, hstop.trans hread.stop.symm⟩)
      rw [programOf_succ hr, programOf_succ hr', hwithin]
      cases hd : declaration room s with
      | ok d s₁ =>
        rw [hd] at hread
        have hstop₁ : x.stop = s₁.cursor.stop := hstop.trans hread.stop.symm
        have hlater := ih hstop₁
        simp only [mapState_ok, hlater]
      | error e s₁ =>
        rw [hd] at hread
        have hrecover : x.stop = (s₁.recover e).cursor.stop := by
          rw [stop_recover]
          exact hstop.trans hread.stop.symm
        have hlater := ih hrecover
        simp only [mapState_error, recover_within hafter, hlater]

/-- Where a longer list is read without an error, at most one error is found in the shorter one, and
that error blames the end. -/
theorem errors_of_shorter {fuel fuel' : Nat} (hf : (s.within x).cursor.rest.length ≤ fuel')
    (hn : (programOf (declaration room) fuel' (s.within x)).2.noted = s.noted) :
    (programOf (declaration room) fuel s).2.noted = s.noted ∨
      ∃ e, (programOf (declaration room) fuel s).2.noted = s.noted ++ [e] ∧
        e.token = s.cursor.stop := by
  have hcomposed := composed_declaration room
  -- turn by turn; the longer list has no errors, so each of its turns has a result
  induction fuel generalizing s fuel' with
  | zero => exact .inl rfl
  | succ fuel ih =>
    by_cases hr : s.cursor.rest = []
    · rw [programOf_of_end hr]
      exact .inl rfl
    · have hr' : (s.within x).cursor.rest ≠ [] := by simp [hr]
      have hpos : 0 < (s.within x).cursor.rest.length := List.length_pos_iff.mpr hr'
      obtain ⟨fuel', rfl⟩ : ∃ n, fuel' = n + 1 := ⟨fuel' - 1, by omega⟩
      obtain ⟨d', t₁, hlong, hclean', hlater⟩ := exists_of_clean hcomposed.frames hr' hn
      have hclean := hcomposed.candid.candid x s d' t₁ hlong hclean'
      have hwithin := hcomposed.foresees.within x s
      have hread := hcomposed.frames s
      rw [programOf_succ hr]
      cases hd : declaration room s with
      | ok d s₁ =>
        rw [hd] at hclean hwithin hread
        by_cases hr₁ : s₁.cursor.rest = []
        · left
          simp only [programOf_of_end hr₁]
          exact hclean
        · -- the declaration ends within the shorter list, so the longer one has the same
          have hsame := hwithin (.inl hr₁)
          rw [hlong] at hsame
          cases hsame
          have hlt : (s₁.within x).cursor.rest.length < (s.within x).cursor.rest.length :=
            consumes_declaration room (s.within x) _ _ hlong
          rcases ih (by omega) hlater with hlater | ⟨e, hlater, he⟩
          · exact .inl (hlater.trans hclean)
          · refine .inr ⟨e, ?_, he.trans hread.stop⟩
            simp only [hlater]
            exact congrArg (· ++ [e]) hclean
      | error e s₁ =>
        rw [hd] at hclean hwithin hread
        -- an error before the end would be found in the longer list, too
        have hr₁ : s₁.cursor.rest = [] := by
          by_contra hr₁
          have hsame := hwithin (.inl hr₁)
          rw [hlong] at hsame
          cases hsame
        have hle := length_recover s₁ e
        rw [hr₁] at hle
        have hend : (s₁.recover e).cursor.rest = [] :=
          List.length_eq_zero_iff.mp (by simpa using hle)
        have htoken := hcomposed.foresees.blames s e s₁ hd
        refine .inr ⟨e, ?_, ?_⟩
        · simp only [programOf_of_end hend, noted_recover]
          exact congrArg (· ++ [e]) hclean
        · rw [htoken, Cursor.current, hr₁]
          exact hread.stop

/-- If a declaration is dropped, an error was noted. -/
theorem panicked_programOf (room fuel : Nat) (s : ParseState) :
    (programOf (declaration room) fuel s).2.panicked = true →
      s.panicked = true ∨ (programOf (declaration room) fuel s).2.noted ≠ [] := by
  have hframes := (composed_declaration room).frames
  induction fuel generalizing s with
  | zero => exact .inl
  | succ fuel ih =>
    by_cases hr : s.cursor.rest = []
    · rw [programOf_of_end hr]
      exact .inl
    · rw [programOf_succ hr]
      cases hd : declaration room s with
      | ok d s₁ =>
        intro h
        have hpanicked := (hframes.of_ok hd).panicked
        rcases ih s₁ h with h | h
        · exact .inl (hpanicked.symm.trans h)
        · exact .inr h
      | error e s₁ =>
        intro _
        right
        intro hnil
        have hlater := noted_programOf hframes fuel (s₁.recover e)
        rw [noted_recover, hnil] at hlater
        simpa using hlater.length_le

end

end Parse

/-! ## Lists of tokens with an end mark -/

/-- Behind all tokens of a list, what follows the list comes. -/
theorem ParseState.behind_length (past ts us : List Token) (stop last : Token)
    (noted : List SyntaxError) (panicked : Bool) :
    (⟨⟨past, ts ++ us, stop, last⟩, noted, panicked⟩ : ParseState).behind ts.length =
      ⟨⟨ts.reverse ++ past, us, stop, last⟩, noted, panicked⟩ := by
  induction ts generalizing past with
  | nil => rfl
  | cons t ts ih =>
    rw [List.length_cons, behind_succ, List.reverse_cons, List.append_assoc]
    exact ih (t :: past)

theorem Cursor.isProper_append {ts us : List Token} (hts : ∀ t ∈ ts, isProper t = true)
    (hus : ∀ t ∈ us, isProper t = true) : ∀ t ∈ ts ++ us, isProper t = true := by
  intro t ht
  rcases List.mem_append.mp ht with ht | ht
  · exact hts t ht
  · exact hus t ht

namespace Program

section

variable {room : Nat} {ts us : List Token} {y z : Token}

/-- A declaration is dropped only because of an error. -/
theorem panicked_of_errors (h : (ofTokens room ts).errors = []) :
    (ofTokens room ts).panicked = false := by
  by_contra hpanicked
  rcases Parse.panicked_programOf room _ (.ofTokens ts) ((Bool.not_eq_false _).mp hpanicked) with
    hp | hp
  · cases hp
  · exact hp h

/-- The beginning of a program that is read without an error is read without an error, or with one
error, which blames the end. -/
theorem errors_of_beginning (hts : ∀ t ∈ ts, Cursor.isProper t = true)
    (hus : ∀ t ∈ us, Cursor.isProper t = true) (hy : Cursor.isProper y = false)
    (hz : Cursor.isProper z = false) (h : (ofTokens room (ts ++ us ++ [z])).errors = []) :
    (ofTokens room (ts ++ [y])).errors = [] ∨
      ∃ e, (ofTokens room (ts ++ [y])).errors = [e] ∧ e.token = y := by
  have hall := Cursor.isProper_append hts hus
  have hlong : ParseState.ofTokens (ts ++ us ++ [z]) =
      (ParseState.ofTokens (ts ++ [y])).within ⟨[], us, z, z⟩ := by
    rw [ofTokens_closed hall hz, ofTokens_closed hts hy]
    rfl
  have hclean : (Parse.program room (ParseState.ofTokens (ts ++ us ++ [z]))).2.noted = [] := h
  rw [hlong] at hclean
  rcases Parse.errors_of_shorter (Nat.le_refl _) hclean with herrors | ⟨e, herrors, he⟩
  · exact .inl herrors
  · refine .inr ⟨e, herrors, ?_⟩
    rw [he, ofTokens_closed hts hy]

/-- A program that is read without an error derives its statements. -/
theorem declarations_of_errors (hts : ∀ t ∈ ts, Cursor.isProper t = true)
    (hz : Cursor.isProper z = false) (h : (ofTokens room (ts ++ [z])).errors = []) :
    Declarations ts (ofTokens room (ts ++ [z])).statements := by
  have hderives := Parse.derives_programOf (Nat.le_refl _) h
  have hrest : (ParseState.ofTokens (ts ++ [z])).cursor.rest = ts := by rw [ofTokens_closed hts hz]
  rw [hrest] at hderives
  unfold ofTokens Parse.program
  rwa [hrest]

/-- If a program and its beginning are read without an error, then so is what follows the
beginning, unless it begins with an "else", and the statements are those of the two parts. -/
theorem statements_of_parts (hts : ∀ t ∈ ts, Cursor.isProper t = true)
    (hus : ∀ t ∈ us, Cursor.isProper t = true) (hy : Cursor.isProper y = false)
    (hz : Cursor.isProper z = false) (helse : ∀ t, us.head? = some t → t.kind ≠ .elseWord)
    (h : (ofTokens room (ts ++ us ++ [z])).errors = [])
    (h' : (ofTokens room (ts ++ [y])).errors = []) :
    (ofTokens room (us ++ [z])).errors = [] ∧
      (ofTokens room (ts ++ us ++ [z])).statements =
        (ofTokens room (ts ++ [y])).statements ++ (ofTokens room (us ++ [z])).statements := by
  have hall := Cursor.isProper_append hts hus
  have hlong := ofTokens_closed hall hz
  have hshort := ofTokens_closed hts hy
  have hrest := ofTokens_closed hus hz
  have hderived := declarations_of_errors hts hy h'
  have hlist : (ParseState.ofTokens (ts ++ us ++ [z])).cursor.rest = ts ++ us := by rw [hlong]
  rcases Parse.programOf_of_declarations hderived hlist helse (Nat.le_refl _) with
    ⟨fuel, hfuel, hread, hread'⟩ | ⟨e, he, -⟩
  · -- the tokens in front do not matter for what follows
    have hbehind : (ParseState.ofTokens (ts ++ us ++ [z])).behind ts.length =
        (ParseState.ofTokens (us ++ [z])).within ⟨ts.reverse, [], z, z⟩ := by
      rw [hlong, hrest, behind_length]
      simp [ParseState.within]
    have hlater : Parse.programOf (Parse.declaration room) fuel
        ((ParseState.ofTokens (us ++ [z])).within ⟨ts.reverse, [], z, z⟩) = _ :=
      Parse.programOf_within rfl (by rw [hrest]) fuel
    have hgranted : Parse.programOf (Parse.declaration room) fuel (.ofTokens (us ++ [z])) =
        Parse.program room (.ofTokens (us ++ [z])) :=
      Parse.programOf_granted (by rwa [hrest]) (Nat.le_refl _)
    rw [hbehind, hlater, hgranted] at hread hread'
    refine ⟨?_, hread⟩
    have herrors : (Parse.program room (.ofTokens (ts ++ us ++ [z]))).2.noted = [] := h
    unfold Parse.program at herrors
    rw [hread'] at herrors
    exact herrors
  · have herrors : (Parse.program room (.ofTokens (ts ++ us ++ [z]))).2.noted = [] := h
    unfold Parse.program at herrors
    rw [herrors] at he
    cases he

end

end Program

end LoxScript
