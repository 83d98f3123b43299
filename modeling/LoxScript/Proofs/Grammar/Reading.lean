import Mathlib.Logic.Function.Iterate
import LoxScript.Grammar.Program
import LoxScript.Proofs.Sequencing

/-!
# Reading on

A parsing step never goes back: it leaves the cursor behind some of the tokens that were to come,
and what was noted stays noted. `ParseState.behind` is the state behind so many tokens, and
`ParseState.Reads` says that one state is reached from another in this way.

All of the grammar is put together from very few steps: looking at the token to come, passing it, and
breaking off at it. `Parse.Composed` collects the steps that are, so that a property of parsing steps
can be carried from these few to the whole grammar by one induction.
-/

namespace LoxScript

namespace ParseState

/-- The state behind the next `n` tokens. At the end it is the state at the end. -/
def behind (s : ParseState) (n : Nat) : ParseState := advance^[n] s

@[simp] theorem behind_zero (s : ParseState) : s.behind 0 = s := rfl

/-- Tokens that are passed one after another add up. -/
theorem behind_behind (s : ParseState) (m n : Nat) : (s.behind m).behind n = s.behind (m + n) := by
  rw [behind, behind, behind, Nat.add_comm, Function.iterate_add_apply]

theorem behind_succ (s : ParseState) (n : Nat) : s.behind (n + 1) = s.advance.behind n := rfl

@[simp] theorem rest_advance (s : ParseState) : s.advance.cursor.rest = s.cursor.rest.tail := by
  obtain ⟨⟨past, rest, stop, last⟩, noted, panicked⟩ := s
  cases rest <;> rfl

@[simp] theorem noted_advance (s : ParseState) : s.advance.noted = s.noted := rfl

@[simp] theorem panicked_advance (s : ParseState) : s.advance.panicked = s.panicked := rfl

@[simp] theorem stop_advance (s : ParseState) : s.advance.cursor.stop = s.cursor.stop := by
  obtain ⟨⟨past, rest, stop, last⟩, noted, panicked⟩ := s
  cases rest <;> rfl

@[simp] theorem rest_behind (s : ParseState) (n : Nat) :
    (s.behind n).cursor.rest = s.cursor.rest.drop n := by
  induction n generalizing s with
  | zero => rfl
  | succ n ih => rw [behind_succ, ih, rest_advance, List.drop_tail]

@[simp] theorem noted_behind (s : ParseState) (n : Nat) : (s.behind n).noted = s.noted := by
  induction n generalizing s with
  | zero => rfl
  | succ n ih => rw [behind_succ, ih, noted_advance]

@[simp] theorem panicked_behind (s : ParseState) (n : Nat) :
    (s.behind n).panicked = s.panicked := by
  induction n generalizing s with
  | zero => rfl
  | succ n ih => rw [behind_succ, ih, panicked_advance]

@[simp] theorem stop_behind (s : ParseState) (n : Nat) :
    (s.behind n).cursor.stop = s.cursor.stop := by
  induction n generalizing s with
  | zero => rfl
  | succ n ih => rw [behind_succ, ih, stop_advance]

/-- Behind the tokens of the first part of what is to come, the second part is to come. -/
theorem behind_append {s : ParseState} {ts rest : List Token} (h : s.cursor.rest = ts ++ rest) :
    (s.behind ts.length).cursor.rest = rest := by
  simp [h]

/-- The second state is the one behind the tokens `ts`, which come next at the first one. -/
def Passes (s : ParseState) (ts : List Token) (s' : ParseState) : Prop :=
  s.cursor.rest = ts ++ s'.cursor.rest ∧ s' = s.behind ts.length

theorem passes_nil {s s' : ParseState} : s.Passes [] s' ↔ s' = s := by
  constructor
  · rintro ⟨-, h⟩
    exact h
  · rintro rfl
    exact ⟨rfl, rfl⟩

/-- Two lists in a row are passed one after the other. -/
theorem passes_append {s s' : ParseState} {us vs : List Token} :
    s.Passes (us ++ vs) s' ↔ ∃ s₁, s.Passes us s₁ ∧ s₁.Passes vs s' := by
  constructor
  · rintro ⟨hr, hs⟩
    rw [List.append_assoc] at hr
    refine ⟨s.behind us.length, ⟨by rw [hr, behind_append hr], rfl⟩, behind_append hr, ?_⟩
    rw [hs, behind_behind, List.length_append]
  · rintro ⟨s₁, ⟨hr₁, rfl⟩, hr₂, rfl⟩
    refine ⟨by rw [hr₁, hr₂, List.append_assoc], ?_⟩
    rw [behind_behind, List.length_append]

/-- A list is passed token by token. -/
theorem passes_cons {s s' : ParseState} {t : Token} {ts : List Token} :
    s.Passes (t :: ts) s' ↔ ∃ s₁, s.Passes [t] s₁ ∧ s₁.Passes ts s' := by
  rw [← passes_append]
  rfl

/-- The tokens that are passed came first. -/
theorem Passes.head {s s' : ParseState} {t : Token} {ts : List Token} (h : s.Passes (t :: ts) s') :
    s.cursor.rest = t :: (ts ++ s'.cursor.rest) := h.1

/-- The second state is reached from the first one by reading on and noting errors. -/
structure Reads (s s' : ParseState) : Prop where
  /-- The cursor has passed some of the tokens to come. -/
  cursor : ∃ ts, s.cursor.rest = ts ++ s'.cursor.rest ∧ s'.cursor = (s.behind ts.length).cursor
  /-- What was noted stays noted. -/
  noted : s.noted <+: s'.noted
  /-- No declaration was dropped. -/
  panicked : s'.panicked = s.panicked

theorem cursor_behind_congr {s s' : ParseState} (h : s.cursor = s'.cursor) (n : Nat) :
    (s.behind n).cursor = (s'.behind n).cursor := by
  induction n generalizing s s' with
  | zero => exact h
  | succ n ih =>
    rw [behind_succ, behind_succ]
    exact ih (congrArg Cursor.advance h)

instance : IsPreorder ParseState Reads where
  refl _ := ⟨⟨[], rfl, rfl⟩, List.prefix_rfl, rfl⟩
  trans s₁ s₂ s₃ h₁ h₂ := by
    obtain ⟨⟨ts, hts, hc₁⟩, hn₁, hp₁⟩ := h₁
    obtain ⟨⟨us, hus, hc₂⟩, hn₂, hp₂⟩ := h₂
    refine ⟨⟨ts ++ us, by rw [hts, hus, List.append_assoc], ?_⟩, hn₁.trans hn₂, hp₂.trans hp₁⟩
    rw [hc₂, cursor_behind_congr hc₁, behind_behind, List.length_append]

namespace Reads

variable {s s' : ParseState}

/-- Reading leaves no more tokens to come. -/
theorem length_le (h : Reads s s') : s'.cursor.rest.length ≤ s.cursor.rest.length := by
  obtain ⟨ts, hts, -⟩ := h.cursor
  rw [hts, List.length_append]
  omega

theorem stop (h : Reads s s') : s'.cursor.stop = s.cursor.stop := by
  obtain ⟨ts, -, hc⟩ := h.cursor
  rw [hc, stop_behind]

/-- Where nothing was noted on the way, nothing was noted on the first part of it. -/
theorem noted_eq {s₁ : ParseState} (h₁ : Reads s s₁) (h₂ : Reads s₁ s')
    (hn : s'.noted = s.noted) : s₁.noted = s.noted := by
  have h := h₂.noted
  rw [hn] at h
  exact h.eq_of_length_le h₁.noted.length_le

/-- Where nothing was noted on the way, the state is the one behind the tokens read. -/
theorem passes (h : Reads s s') (hn : s'.noted = s.noted) : ∃ ts, s.Passes ts s' := by
  obtain ⟨ts, hts, hc⟩ := h.cursor
  refine ⟨ts, hts, ?_⟩
  have hnoted : s'.noted = (s.behind ts.length).noted := by rw [hn, noted_behind]
  have hpanicked : s'.panicked = (s.behind ts.length).panicked := by
    rw [h.panicked, panicked_behind]
  obtain ⟨c, n, p⟩ := s'
  cases hc
  cases hnoted
  cases hpanicked
  rfl

end Reads

/-- Passing a token is reading. -/
theorem reads_advance (s : ParseState) : Reads s s.advance := by
  refine ⟨?_, List.prefix_rfl, rfl⟩
  cases h : s.cursor.rest with
  | nil =>
    refine ⟨[], by rw [rest_advance, h]; rfl, ?_⟩
    simp [advance, Cursor.advance, h]
  | cons t ts => exact ⟨[t], by rw [rest_advance, h]; rfl, rfl⟩

/-- Noting an error is reading, too. -/
theorem reads_note (s : ParseState) (e : SyntaxError) : Reads s (s.note e) :=
  ⟨⟨[], rfl, rfl⟩, List.prefix_append _ _, rfl⟩

end ParseState

open ParseState

namespace Parse

variable {α β : Type}

/-- Passes the token to come. -/
def skip : Parse Unit := fun s => .ok () s.advance

/-! ## The steps in terms of looking, passing and breaking off -/

/-- Accepting a token is looking at it and passing it. -/
theorem accept_eq (kinds : List TokenKind) :
    accept kinds = (do
      match ← look with
      | none => return none
      | some t =>
        if kinds.contains t.kind then
          skip
          return some t
        else return none) := by
  funext s
  show accept kinds s = _
  rw [accept]
  cases h : s.cursor.rest with
  | nil =>
    have hl : look s = .ok none s := by simp [look, h]
    rw [bind_of_ok hl]
    rfl
  | cons t ts =>
    have hl : look s = .ok (some t) s := by simp [look, h]
    rw [bind_of_ok hl]
    dsimp only
    split <;> rfl

/-- Expecting a token is looking at it, and passing it or breaking off. -/
theorem expect_eq (kind : TokenKind) (cause : SyntaxCause) :
    expect kind cause = (do
      match ← look with
      | none => fail cause
      | some t =>
        if t.kind = kind then
          skip
          return t
        else fail cause) := by
  funext s
  show expect kind cause s = _
  rw [expect]
  cases h : s.cursor.rest with
  | nil =>
    have hl : look s = .ok none s := by simp [look, h]
    rw [bind_of_ok hl]
    simp [fail, Cursor.current, h]
  | cons t ts =>
    have hl : look s = .ok (some t) s := by simp [look, h]
    rw [bind_of_ok hl]
    dsimp only
    split
    · rfl
    · simp [fail, Cursor.current, h]

/-- The token that is passed by the climb is the one that was looked at. -/
theorem climb_succ (operand : Parse Expr) (fuel least : Nat) (left : Expr) :
    climb operand (fuel + 1) least left = (do
      match ← look with
      | none => return left
      | some t =>
        match Tier.of? t.kind with
        | none => return left
        | some tier =>
          if tier.level < least then return left
          else
            skip
            let first ← operand
            let right ← climb operand fuel (tier.level + 1) first
            climb operand fuel least (tier.join left t right)) := by
  funext s
  rw [climb]
  cases h : s.cursor.rest with
  | nil =>
    have hl : look s = .ok none s := by simp [look, h]
    rw [bind_of_ok hl, bind_of_ok hl]
    rfl
  | cons t ts =>
    have hl : look s = .ok (some t) s := by simp [look, h]
    rw [bind_of_ok hl, bind_of_ok hl]
    dsimp only [Option.bind_some]
    cases Tier.of? t.kind with
    | none => rfl
    | some tier =>
      dsimp only
      split
      · rfl
      · have ha : advance s = .ok t s.advance := by
          simp [advance, ParseState.advance, Cursor.advance, Cursor.previous, h]
        have hs : skip s = .ok () s.advance := rfl
        rw [bind_of_ok ha, bind_of_ok hs]

/-! ## Steps that are put together from these -/

/-- A step that is put together from looking at the token to come, passing it, and breaking off at
it. An assignment is the only construct that notes an error without breaking off. A loop that is
granted as many turns as there are tokens to come counts as well, if it does for every number of
turns. -/
inductive Composed : {α : Type} → Parse α → Prop where
  | pure {α : Type} (a : α) : Composed (pure a)
  | bind {α β : Type} {p : Parse α} {f : α → Parse β} (hp : Composed p)
      (hf : ∀ a, Composed (f a)) : Composed (p >>= f)
  | look : Composed look
  | skip : Composed skip
  | fail {α : Type} (cause : SyntaxCause) : Composed (fail cause : Parse α)
  | assignment {target value : Parse Expr} (ht : Composed target) (hv : Composed value) :
      Composed (assignmentOf target value)
  /-- A step that depends on the number of tokens to come only in how far it can get. -/
  | granted {α : Type} {p : Parse α} (q : Nat → Parse α) (hq : ∀ n, Composed (q n))
      (h : ∀ n s, s.cursor.rest.length ≤ n → p s = q n s) : Composed p

theorem Composed.accept (kinds : List TokenKind) : Composed (accept kinds) := by
  rw [accept_eq]
  refine .bind .look fun o => ?_
  cases o with
  | none => exact .pure _
  | some t =>
    dsimp only
    split
    · exact .bind .skip fun _ => .pure _
    · exact .pure _

theorem Composed.expect (kind : TokenKind) (cause : SyntaxCause) :
    Composed (expect kind cause) := by
  rw [expect_eq]
  refine .bind .look fun o => ?_
  cases o with
  | none => exact .fail _
  | some t =>
    dsimp only
    split
    · exact .bind .skip fun _ => .pure _
    · exact .fail _

theorem frames_look : Frames Reads look := fun s => refl_of Reads s

theorem frames_skip : Frames Reads skip := reads_advance

theorem frames_fail (cause : SyntaxCause) : Frames Reads (fail cause : Parse α) :=
  fun s => refl_of Reads s

theorem frames_accept (kinds : List TokenKind) : Frames Reads (accept kinds) := by
  rw [accept_eq]
  refine frames_look.bind fun o => ?_
  cases o with
  | none => exact .pure _
  | some t =>
    dsimp only
    split
    · exact frames_skip.bind fun _ => .pure _
    · exact .pure _

/-- A relation between the states before and after holds of every step that is put together in this
way, if it holds of passing a token and of every assignment whose parts have it. -/
theorem Composed.frames_of {R : ParseState → ParseState → Prop} [IsPreorder ParseState R]
    (hadvance : ∀ s, R s s.advance)
    (hassignment : ∀ {target value : Parse Expr}, Frames R target → Frames R value →
      Frames R (assignmentOf target value))
    {p : Parse α} (h : Composed p) : Frames R p := by
  induction h with
  | pure a => exact .pure a
  | bind _ _ ihp ihf => exact ihp.bind ihf
  | look => exact fun s => refl_of R s
  | skip => exact hadvance
  | fail cause => exact fun s => refl_of R s
  | assignment _ _ iht ihv => exact hassignment iht ihv
  | granted q _ h ihq =>
    intro s
    rw [h _ s (Nat.le_refl _)]
    exact ihq _ s

/-- A step that is put together in this way reads on. -/
theorem Composed.frames {p : Parse α} (h : Composed p) : Frames Reads p := by
  refine h.frames_of reads_advance fun ht hv => ht.bind fun left => (frames_accept _).bind fun o => ?_
  cases o with
  | none => exact .pure _
  | some sign =>
    refine hv.bind fun e => ?_
    split
    · exact .pure _
    · exact .bind (fun s => reads_note s _) fun _ => .pure _

end Parse

end LoxScript
