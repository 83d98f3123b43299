import LoxScript.Proofs.Grammar.Composition

/-!
# One token of lookahead

What a parsing step does is determined by the tokens that it passes and by the one token behind them,
or by the end, if there is none. The tokens further on, the tokens in front, and the errors that were
noted before do not matter. So the outcome of a step at one state tells its outcome at every state
that agrees with the first one that far (`Composed.isLocal`).
-/

namespace LoxScript

namespace ParseState

/-- The state behind the next `n` tokens, with further errors noted. -/
def after (s : ParseState) (n : Nat) (es : List SyntaxError) : ParseState :=
  ⟨(s.behind n).cursor, s.noted ++ es, s.panicked⟩

theorem after_zero (s : ParseState) : s.after 0 [] = s := by
  simp [after]

/-- Tokens that are passed and errors that are noted add up. -/
theorem after_after (s : ParseState) (m n : Nat) (es fs : List SyntaxError) :
    (s.after m es).after n fs = s.after (m + n) (es ++ fs) := by
  have hcursor : ((s.after m es).behind n).cursor = (s.behind (m + n)).cursor := by
    rw [← behind_behind]
    have hsame : (s.after m es).cursor = (s.behind m).cursor := rfl
    exact cursor_behind_congr hsame n
  unfold after at hcursor ⊢
  rw [hcursor]
  simp

@[simp] theorem rest_after (s : ParseState) (n : Nat) (es : List SyntaxError) :
    (s.after n es).cursor.rest = s.cursor.rest.drop n := rest_behind s n

/-- Behind the tokens that were to come first, the others come. -/
theorem rest_after_append {s : ParseState} {us rest : List Token}
    (h : s.cursor.rest = us ++ rest) (es : List SyntaxError) :
    (s.after us.length es).cursor.rest = rest := by
  simp [h]

/-- The second state is reached from the first one by passing the tokens `us` and noting the errors
`es`. -/
def Leads (s : ParseState) (us : List Token) (es : List SyntaxError) (s' : ParseState) : Prop :=
  s.cursor.rest = us ++ s'.cursor.rest ∧ s' = s.after us.length es

namespace Leads

variable {s s₁ s₂ : ParseState} {us vs : List Token} {es fs : List SyntaxError}

theorem refl (s : ParseState) : s.Leads [] [] s := ⟨rfl, (after_zero s).symm⟩

theorem trans (h₁ : s.Leads us es s₁) (h₂ : s₁.Leads vs fs s₂) :
    s.Leads (us ++ vs) (es ++ fs) s₂ := by
  obtain ⟨hr₁, rfl⟩ := h₁
  obtain ⟨hr₂, rfl⟩ := h₂
  refine ⟨by rw [List.append_assoc, ← hr₂, ← hr₁], ?_⟩
  rw [after_after, List.length_append]

/-- The errors on the way are noted behind the earlier ones. -/
theorem noted (h : s.Leads us es s₁) : s₁.noted = s.noted ++ es := by
  rw [h.2]
  rfl

/-- The tokens and the errors in between are determined by the two states. -/
theorem unique (h : s.Leads us es s₁) (h' : s.Leads vs fs s₁) : us = vs ∧ es = fs := by
  refine ⟨List.append_cancel_right (h.1.symm.trans h'.1), ?_⟩
  exact List.append_cancel_left (h.noted.symm.trans h'.noted)

end Leads

/-- Reading leads from one state to the other, past some tokens and errors. -/
theorem Reads.leads {s s' : ParseState} (h : Reads s s') : ∃ us es, s.Leads us es s' := by
  obtain ⟨us, hus, hcursor⟩ := h.cursor
  obtain ⟨es, hes⟩ := h.noted
  have hpanicked := h.panicked
  refine ⟨us, es, hus, ?_⟩
  obtain ⟨cursor, noted, panicked⟩ := s'
  cases hcursor
  cases hes
  cases hpanicked
  rfl

/-- Passing a token leads behind it. -/
theorem leads_advance {s : ParseState} {u : Token} {us : List Token}
    (h : s.cursor.rest = u :: us) : s.Leads [u] [] s.advance := by
  refine ⟨by rw [rest_advance, h]; rfl, ?_⟩
  simp [after, behind]
  rfl

end ParseState

open ParseState

namespace Parse

variable {α β : Type}

/-- The same outcome in another state. An error blames the token that is to come there. -/
def outcomeIn (t : ParseState) :
    EStateM.Result SyntaxError ParseState α → EStateM.Result SyntaxError ParseState α
  | .ok a _ => .ok a t
  | .error e _ => .error ⟨t.cursor.current, e.cause⟩ t

@[simp] theorem outcomeIn_ok (t s : ParseState) (a : α) : outcomeIn t (.ok a s) = .ok a t := rfl

@[simp] theorem outcomeIn_error (t s : ParseState) (e : SyntaxError) :
    (outcomeIn t (.error e s) : EStateM.Result SyntaxError ParseState α) =
      .error ⟨t.cursor.current, e.cause⟩ t := rfl

/-- The step has the same outcome at any two states that agree on the tokens it passes and on the
token behind these. -/
structure Local (p : Parse α) : Prop where
  reads : Frames Reads p
  replays : ∀ {s t us es rest}, s.Leads us es (endState (p s)) → t.cursor.rest = us ++ rest →
    rest.head? = (endState (p s)).cursor.rest.head? →
      p t = outcomeIn (t.after us.length es) (p s)

/-- Only the first of the tokens behind a list can be seen through it. -/
theorem head?_append_congr {us rest rest' : List Token} (h : rest.head? = rest'.head?) :
    (us ++ rest).head? = (us ++ rest').head? := by
  cases us with
  | nil => exact h
  | cons u us => rfl

namespace Local

variable {p : Parse α} {f : α → Parse β}

/-- A result, and where it is reached, as seen at another state. -/
theorem ok (hp : Local p) {s s₁ t : ParseState} {a : α} {us rest : List Token}
    {es : List SyntaxError} (h : p s = .ok a s₁) (hs : s.Leads us es s₁)
    (ht : t.cursor.rest = us ++ rest) (hrest : rest.head? = s₁.cursor.rest.head?) :
    p t = .ok a (t.after us.length es) := by
  have hend : endState (p s) = s₁ := by rw [h, endState_ok]
  rw [← hend] at hs hrest
  rw [hp.replays hs ht hrest, h, outcomeIn_ok]

/-- An error, and where it is raised, as seen at another state. -/
theorem error (hp : Local p) {s s₁ t : ParseState} {e : SyntaxError} {us rest : List Token}
    {es : List SyntaxError} (h : p s = .error e s₁) (hs : s.Leads us es s₁)
    (ht : t.cursor.rest = us ++ rest) (hrest : rest.head? = s₁.cursor.rest.head?) :
    p t = .error ⟨(t.after us.length es).cursor.current, e.cause⟩ (t.after us.length es) := by
  have hend : endState (p s) = s₁ := by rw [h, endState_error]
  rw [← hend] at hs hrest
  rw [hp.replays hs ht hrest, h, outcomeIn_error]

/-- A step that stays where it is, and looks at the token to come at most. -/
theorem still (hstill : ∀ s, endState (p s) = s)
    (h : ∀ s t : ParseState, t.cursor.rest.head? = s.cursor.rest.head? → p t = outcomeIn t (p s)) :
    Local p where
  reads s := by
    rw [hstill]
    exact refl_of Reads s
  replays {s t us es rest} hs ht hrest := by
    rw [hstill] at hs hrest
    obtain ⟨rfl, rfl⟩ := hs.unique (Leads.refl s)
    rw [List.length_nil, after_zero]
    refine h s t ?_
    rw [ht]
    exact hrest

theorem pure (a : α) : Local (pure a : Parse α) := still (fun _ => rfl) fun _ _ _ => rfl

theorem look : Local look := by
  refine still (fun _ => rfl) fun s t h => ?_
  simp only [Parse.look, outcomeIn_ok, h]

theorem fail (cause : SyntaxCause) : Local (fail cause : Parse α) :=
  still (fun _ => rfl) fun _ _ _ => rfl

theorem skip : Local skip where
  reads := frames_skip
  replays {s t us es rest} hs ht hrest := by
    have hs' : s.Leads us es s.advance := hs
    have hrest' : rest.head? = s.advance.cursor.rest.head? := hrest
    have hskip : Parse.skip t = .ok () t.advance := rfl
    have hout : outcomeIn (t.after us.length es) (Parse.skip s) =
        .ok () (t.after us.length es) := rfl
    rw [hskip, hout]
    cases hr : s.cursor.rest with
    | nil =>
      -- at the end, nothing is passed
      have hadvance : s.advance = s := by simp [ParseState.advance, Cursor.advance, hr]
      rw [hadvance] at hs' hrest'
      obtain ⟨rfl, rfl⟩ := hs'.unique (Leads.refl s)
      rw [hr, List.head?_nil, List.head?_eq_none_iff] at hrest'
      have hadvance' : t.advance = t := by
        simp [ParseState.advance, Cursor.advance, ht, hrest']
      rw [hadvance', List.length_nil, after_zero]
    | cons u vs =>
      obtain ⟨rfl, rfl⟩ := hs'.unique (leads_advance hr)
      rw [(leads_advance ht).2]

theorem note (e : SyntaxError) : Local (note e) where
  reads s := reads_note s e
  replays {s t us es rest} hs ht hrest := by
    have hnote : ∀ s : ParseState, s.Leads [] [e] (s.note e) := fun s => ⟨rfl, rfl⟩
    have hs' : s.Leads us es (s.note e) := hs
    obtain ⟨rfl, rfl⟩ := hs'.unique (hnote s)
    rfl

theorem bind (hp : Local p) (hf : ∀ a, Local (f a)) : Local (p >>= f) where
  reads := hp.reads.bind fun a => (hf a).reads
  replays {s t us es rest} hs ht hrest := by
    cases h : p s with
    | ok a s₁ =>
      rw [bind_of_ok h] at hs hrest ⊢
      obtain ⟨us₁, es₁, hs₁⟩ := (hp.reads.of_ok h).leads
      obtain ⟨us₂, es₂, hs₂⟩ := ((hf a).reads s₁).leads
      obtain ⟨rfl, rfl⟩ := hs.unique (hs₁.trans hs₂)
      rw [List.append_assoc] at ht
      -- the first step sees the same token behind those that it passes
      have hnext : (us₂ ++ rest).head? = s₁.cursor.rest.head? := by
        rw [hs₂.1]
        exact head?_append_congr hrest
      have hfirst := hp.ok h hs₁ ht hnext
      have hsecond := (hf a).replays hs₂ (rest_after_append ht es₁) hrest
      rw [bind_of_ok hfirst, hsecond, after_after, List.length_append]
    | error e s₁ =>
      rw [bind_of_error h] at hs hrest ⊢
      exact bind_of_error (hp.error h hs ht hrest)

end Local

theorem Local.accept (kinds : List TokenKind) : Local (accept kinds) := by
  rw [accept_eq]
  refine Local.look.bind fun o => ?_
  cases o with
  | none => exact .pure _
  | some t =>
    dsimp only
    split
    · exact Local.skip.bind fun _ => .pure _
    · exact .pure _

/-- Steps in this way composed are local: an assignment notes an error behind its value, and a loop
does as many turns as the tokens that it passes. -/
theorem Composed.isLocal {p : Parse α} (h : Composed p) : Local p := by
  induction h with
  | pure a => exact .pure a
  | bind _ _ ihp ihf => exact ihp.bind ihf
  | look => exact .look
  | skip => exact .skip
  | fail cause => exact .fail cause
  | assignment _ _ iht ihv =>
    refine iht.bind fun left => (Local.accept _).bind fun o => ?_
    cases o with
    | none => exact .pure _
    | some sign =>
      refine ihv.bind fun e => ?_
      split
      · exact .pure _
      · exact (Local.note _).bind fun _ => .pure _
  | @granted α p q hq h ihq =>
    refine ⟨(Composed.granted q hq h).frames, ?_⟩
    intro s t us es rest hs ht hrest
    have hp : ∀ r : ParseState, r.cursor.rest.length ≤
        max s.cursor.rest.length t.cursor.rest.length →
        p r = q (max s.cursor.rest.length t.cursor.rest.length) r := fun r hr => h _ r hr
    rw [hp s (Nat.le_max_left _ _)] at hs hrest ⊢
    rw [hp t (Nat.le_max_right _ _)]
    exact (ihq _).replays hs ht hrest

end Parse

end LoxScript
