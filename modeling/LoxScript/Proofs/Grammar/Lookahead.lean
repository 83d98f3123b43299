import LoxScript.Proofs.Grammar.Composition

/-!
# What a parsing step knows of the tokens to come

A parsing step knows no token behind the place where it stops. So, as long as it does not stop at the
very end, it does the same when further tokens follow, and the same holds for other tokens in front
of those that it reads (`Composed.foresees`).

If it does stop at the end, further tokens may change its outcome; but it has not noted an error that
they could have made up for. The only construct that notes an error, an assignment, needs a sign of
assignment to be passed first, and with further tokens it would note the error all the same, or
break off (`Composed.candid`).
-/

namespace LoxScript

/-- What surrounds a list of tokens in a longer one. -/
structure Surroundings where
  before : List Token
  after : List Token
  /-- The end mark of the longer list. -/
  stop : Token
  /-- Its last token. -/
  last : Token

namespace ParseState

/-- The same place in the longer list. -/
def within (s : ParseState) (x : Surroundings) : ParseState :=
  { s with cursor := ⟨s.cursor.past ++ x.before, s.cursor.rest ++ x.after, x.stop, x.last⟩ }

@[simp] theorem rest_within (s : ParseState) (x : Surroundings) :
    (s.within x).cursor.rest = s.cursor.rest ++ x.after := rfl

@[simp] theorem noted_within (s : ParseState) (x : Surroundings) :
    (s.within x).noted = s.noted := rfl

/-- In this state, nothing that can be seen tells the longer list from the shorter one: there is a
token to come, or none follow in the longer list either and the end mark is the same. -/
def Unseen (x : Surroundings) (s : ParseState) : Prop :=
  s.cursor.rest ≠ [] ∨ x.after = [] ∧ x.stop = s.cursor.stop

/-- What cannot be seen now could not be seen before. -/
theorem Reads.unseen {x : Surroundings} {s s' : ParseState} (h : Reads s s') (hx : Unseen x s') :
    Unseen x s := by
  rcases hx with hne | ⟨hafter, hstop⟩
  · left
    intro hr
    obtain ⟨ts, hts, -⟩ := h.cursor
    rw [hr] at hts
    exact hne (List.append_eq_nil_iff.mp hts.symm).2
  · exact .inr ⟨hafter, hstop.trans h.stop⟩

/-- Where no token comes, none is read. -/
theorem Reads.rest_eq_nil {s s' : ParseState} (h : Reads s s') (hr : s.cursor.rest = []) :
    s'.cursor.rest = [] := by
  obtain ⟨ts, hts, -⟩ := h.cursor
  rw [hr] at hts
  exact (List.append_eq_nil_iff.mp hts.symm).2

/-- What stands around cannot be seen as long as a token comes. -/
theorem current_within {x : Surroundings} {s : ParseState} (hx : Unseen x s) :
    (s.within x).cursor.current = s.cursor.current := by
  obtain ⟨⟨past, rest, stop, last⟩, noted, panicked⟩ := s
  rcases hx with hne | ⟨hafter, hstop⟩
  · cases rest with
    | nil => exact absurd rfl hne
    | cons t ts => rfl
  · simp only [within, Cursor.current, hafter, List.append_nil]
    rw [hstop]

theorem head?_within {x : Surroundings} {s : ParseState} (hx : Unseen x s) :
    (s.within x).cursor.rest.head? = s.cursor.rest.head? := by
  rcases hx with hne | ⟨hafter, -⟩
  · cases hr : s.cursor.rest with
    | nil => exact absurd hr hne
    | cons t ts => simp [hr]
  · rw [rest_within, hafter, List.append_nil]

/-- Passing a token is the same within other tokens. -/
theorem advance_within {x : Surroundings} {s : ParseState} (hx : Unseen x s) :
    (s.within x).advance = s.advance.within x := by
  obtain ⟨⟨past, rest, stop, last⟩, noted, panicked⟩ := s
  cases rest with
  | nil =>
    rcases hx with hne | ⟨hafter, -⟩
    · exact absurd rfl hne
    · simp [within, advance, Cursor.advance, hafter]
  | cons t ts => rfl

end ParseState

open ParseState

namespace Parse

variable {α β : Type}

/-! ## Further tokens -/

/-- The step does the same in a longer list, as long as the difference cannot be seen where it
stops; and if it breaks off, it blames the token at which it stops. -/
structure Foresees (p : Parse α) : Prop where
  reads : Frames Reads p
  within : ∀ x s, Unseen x (endState (p s)) → p (s.within x) = mapState (·.within x) (p s)
  /-- It blames the token at which it stops. -/
  blames : ∀ s e s', p s = .error e s' → e.token = s'.cursor.current

namespace Foresees

variable {p : Parse α} {f : α → Parse β}

theorem pure (a : α) : Foresees (pure a : Parse α) where
  reads := .pure a
  within _ _ _ := rfl
  blames _ _ _ h := by cases h

theorem bind (hp : Foresees p) (hf : ∀ a, Foresees (f a)) : Foresees (p >>= f) where
  reads := hp.reads.bind fun a => (hf a).reads
  within x s hx := by
    have hwithin := hp.within x s
    cases h : p s with
    | ok a s₁ =>
      rw [bind_of_ok h] at hx ⊢
      rw [h] at hwithin
      have hx₁ : Unseen x s₁ := ((hf a).reads s₁).unseen hx
      rw [bind_of_ok (hwithin hx₁)]
      exact (hf a).within x s₁ hx
    | error e s₁ =>
      rw [bind_of_error h] at hx ⊢
      rw [h] at hwithin
      rw [bind_of_error (hwithin hx)]
      rfl
  blames s e s' h := by
    rcases bind_eq_error.mp h with h | ⟨a, s₁, -, h⟩
    · exact hp.blames s e s' h
    · exact (hf a).blames s₁ e s' h

theorem look : Foresees look where
  reads := frames_look
  within x s hx := by
    have hhead : (s.within x).cursor.rest.head? = s.cursor.rest.head? := head?_within hx
    simp only [Parse.look, mapState_ok, hhead]
  blames _ _ _ h := by cases h

theorem skip : Foresees skip where
  reads := frames_skip
  within x s hx := by
    have hx₀ : Unseen x s := (reads_advance s).unseen hx
    have hadvance : (s.within x).advance = s.advance.within x := advance_within hx₀
    simp only [Parse.skip, mapState_ok, hadvance]
  blames _ _ _ h := by cases h

theorem fail (cause : SyntaxCause) : Foresees (fail cause : Parse α) where
  reads := frames_fail cause
  within x s hx := by
    have hcurrent : (s.within x).cursor.current = s.cursor.current := current_within hx
    simp only [Parse.fail, mapState_error, hcurrent]
  blames s e s' h := by
    cases h
    rfl

theorem note (e : SyntaxError) : Foresees (note e) where
  reads s := reads_note s e
  within _ _ _ := rfl
  blames _ _ _ h := by cases h

theorem accept (kinds : List TokenKind) : Foresees (accept kinds) := by
  rw [accept_eq]
  refine look.bind fun o => ?_
  cases o with
  | none => exact .pure _
  | some t =>
    dsimp only
    split
    · exact skip.bind fun _ => .pure _
    · exact .pure _

end Foresees

/-- The part of an assignment behind its left side. -/
theorem Foresees.assigned {value : Parse Expr} (hv : Foresees value) (left : Expr) :
    Foresees (do
      match ← Parse.accept [.equal] with
      | none => return left
      | some sign =>
        let e ← value
        match left with
        | .read name _ => return .assign name e name.line
        | _ =>
          Parse.note ⟨sign, .invalidTarget⟩
          return left) := by
  refine (Foresees.accept _).bind fun o => ?_
  cases o with
  | none => exact .pure _
  | some sign =>
    refine hv.bind fun e => ?_
    split
    · exact .pure _
    · exact (Foresees.note _).bind fun _ => .pure _

/-- What a step does depends only on the tokens up to the place where it stops. -/
theorem Composed.foresees {p : Parse α} (h : Composed p) : Foresees p := by
  induction h with
  | pure a => exact .pure a
  | bind _ _ ihp ihf => exact ihp.bind ihf
  | look => exact .look
  | skip => exact .skip
  | fail cause => exact .fail cause
  | assignment _ _ iht ihv => exact iht.bind fun left => ihv.assigned left
  | @granted α p q hq h ihq =>
    have hall : ∀ (s : ParseState) n, s.cursor.rest.length ≤ n → p s = q n s := fun s n => h n s
    refine ⟨(Composed.granted q hq h).frames, ?_, ?_⟩
    · intro x s hx
      have hn : s.cursor.rest.length ≤ (s.within x).cursor.rest.length := by
        rw [rest_within, List.length_append]
        omega
      rw [hall s _ hn] at hx ⊢
      rw [hall (s.within x) _ (Nat.le_refl _)]
      exact (ihq _).within x s hx
    · intro s e s' he
      rw [hall s _ (Nat.le_refl _)] at he
      exact (ihq _).blames s e s' he

/-! ## Errors that further tokens do not make up for -/

/-- At the end the step notes nothing; and anywhere it notes nothing if it has a result without
noting anything in a longer list. -/
structure Candid (p : Parse α) : Prop where
  quiet : ∀ s, s.cursor.rest = [] → (endState (p s)).noted = s.noted
  candid : ∀ x s a t, p (s.within x) = .ok a t → t.noted = s.noted →
    (endState (p s)).noted = s.noted

namespace Candid

variable {p : Parse α} {f : α → Parse β}

/-- What notes nothing is candid. -/
theorem of_noted (h : ∀ s, (endState (p s)).noted = s.noted) : Candid p :=
  ⟨fun s _ => h s, fun _ s _ _ _ _ => h s⟩

theorem bind (hp : Candid p) (hp' : Foresees p) (hf : ∀ a, Candid (f a))
    (hf' : ∀ a, Foresees (f a)) : Candid (p >>= f) where
  quiet s hr := by
    have hquiet := hp.quiet s hr
    cases h : p s with
    | ok a s₁ =>
      rw [h] at hquiet
      rw [bind_of_ok h]
      have hr₁ := (hp'.reads.of_ok h).rest_eq_nil hr
      exact ((hf a).quiet s₁ hr₁).trans hquiet
    | error e s₁ =>
      rw [h] at hquiet
      rw [bind_of_error h]
      exact hquiet
  candid x s b t h hn := by
    obtain ⟨a', t₁, h₁, h₂⟩ := bind_eq_ok.mp h
    have hn₁ : t₁.noted = s.noted :=
      (hp'.reads.of_ok h₁).noted_eq ((hf' a').reads.of_ok h₂) hn
    have hclean := hp.candid x s a' t₁ h₁ hn₁
    cases hs : p s with
    | error e s₁ =>
      rw [hs] at hclean
      rw [bind_of_error hs]
      exact hclean
    | ok a s₁ =>
      rw [hs] at hclean
      rw [bind_of_ok hs]
      by_cases hr : s₁.cursor.rest = []
      · exact ((hf _).quiet s₁ hr).trans hclean
      · -- the longer list makes no difference for the first step
        have hwithin := hp'.within x s (by rw [hs]; exact .inl hr)
        rw [hs, h₁] at hwithin
        cases hwithin
        exact ((hf _).candid x s₁ b t h₂ (hn.trans hclean.symm)).trans hclean

end Candid

/-- Whether a token is accepted or not, nothing is noted. -/
theorem noted_accept (kinds : List TokenKind) (s : ParseState) :
    (endState (accept kinds s)).noted = s.noted := by
  unfold accept
  split
  · rfl
  · split <;> rfl

/-- The part of an assignment behind its left side. -/
theorem candid_assigned {value : Parse Expr} (hv : Candid value) (hv' : Foresees value)
    (left : Expr) :
    Candid (do
      match ← accept [.equal] with
      | none => return left
      | some sign =>
        let e ← value
        match left with
        | .read name _ => return .assign name e name.line
        | _ =>
          note ⟨sign, .invalidTarget⟩
          return left) := by
  have hpure : ∀ e : Expr, Candid (pure e : Parse Expr) := fun e => .of_noted fun _ => rfl
  -- an error is noted only if the left side is no variable
  by_cases hread : ∃ name line, left = .read name line
  · obtain ⟨name, line, rfl⟩ := hread
    refine Candid.bind (.of_noted (noted_accept _)) (.accept _) (fun o => ?_) fun o => ?_
    · cases o with
      | none => exact hpure _
      | some sign => exact hv.bind hv' (fun e => hpure _) fun e => .pure _
    · cases o with
      | none => exact .pure _
      | some sign => exact hv'.bind fun e => .pure _
  · constructor
    · intro s hr
      have hnone : accept [.equal] s = .ok none s := by simp [accept, hr]
      rw [bind_of_ok hnone]
      rfl
    · intro x s a t h hn
      by_cases hsign : ∃ u us, s.cursor.rest = u :: us ∧ u.kind = .equal
      · -- the error is noted in the longer list, too
        obtain ⟨u, us, hr, hk⟩ := hsign
        have hsome : accept [.equal] (s.within x) = .ok (some u) (s.within x).advance := by
          simp [accept, hr, hk]
        rw [bind_of_ok hsome] at h
        obtain ⟨e, t₂, h₂, h₃⟩ := bind_eq_ok.mp h
        have hle := (hv'.reads.of_ok h₂).noted.length_le
        rw [noted_advance, noted_within] at hle
        have ht : t = t₂.note ⟨u, .invalidTarget⟩ := by
          split at h₃
          · exact absurd ⟨_, _, rfl⟩ hread
          · cases h₃
            rfl
        rw [ht] at hn
        have hlen := congrArg List.length hn
        simp only [ParseState.note, List.length_append, List.length_singleton] at hlen
        omega
      · have hnone : accept [.equal] s = .ok none s := by
          unfold accept
          split
          · rfl
          · next u us hr =>
            have hk : u.kind ≠ .equal := fun hk => hsign ⟨u, us, hr, hk⟩
            simp [hk]
        rw [bind_of_ok hnone]
        rfl

/-- An error that is noted before the end would be noted in a longer list as well, unless the step
broke off there. -/
theorem Composed.candid {p : Parse α} (h : Composed p) : Candid p := by
  induction h with
  | pure a => exact .of_noted fun _ => rfl
  | bind hp hf ihp ihf => exact ihp.bind hp.foresees ihf fun a => (hf a).foresees
  | look => exact .of_noted fun _ => rfl
  | skip => exact .of_noted fun _ => rfl
  | fail cause => exact .of_noted fun _ => rfl
  | assignment ht hv iht ihv =>
    exact iht.bind ht.foresees (fun left => candid_assigned ihv hv.foresees left)
      fun left => hv.foresees.assigned left
  | granted q _ h ihq =>
    constructor
    · intro s hr
      rw [h _ s (Nat.le_refl _)]
      exact (ihq _).quiet s hr
    · intro x s a t hp hn
      have hle : s.cursor.rest.length ≤ (s.within x).cursor.rest.length := by
        rw [rest_within, List.length_append]
        omega
      rw [h _ _ (Nat.le_refl _)] at hp
      rw [h _ s hle]
      exact (ihq _).candid x s a t hp hn

end Parse

end LoxScript
