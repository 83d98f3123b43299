import Mathlib.Order.Defs.Unbundled

/-!
# Steps in sequence

Parsing, evaluation and execution are all steps that work on a state and end with a result or break
off. The lemmas of this module take a sequence of two steps apart, and carry three kinds of statements
from the parts to the sequence: what holds of every result (`Ensures`), what holds of every reason to
break off (`Breaks`), and how the state afterwards is related to the state before, whether or not the
step breaks off (`Frames`). Steps on different states are compared by a relation between the states
(`Simulates`), and by translations of their results and of their reasons to break off (`Translates`).
-/

namespace LoxScript

variable {ε σ α β : Type} {p : EStateM ε σ α} {f : α → EStateM ε σ β}

/-- Behind a step with a result, the other step goes on. -/
theorem bind_of_ok {s s₁ : σ} {a : α} (h : p s = .ok a s₁) : (p >>= f) s = f a s₁ := by
  change EStateM.bind p f s = f a s₁
  rw [EStateM.bind, h]

/-- Behind a step that breaks off, nothing is done. -/
theorem bind_of_error {s s₁ : σ} {e : ε} (h : p s = .error e s₁) :
    (p >>= f) s = .error e s₁ := by
  change EStateM.bind p f s = .error e s₁
  rw [EStateM.bind, h]

/-- A sequence has a result exactly if both of its steps have one. -/
theorem bind_eq_ok {s s₂ : σ} {b : β} :
    (p >>= f) s = .ok b s₂ ↔ ∃ a s₁, p s = .ok a s₁ ∧ f a s₁ = .ok b s₂ := by
  cases h : p s with
  | ok a s₁ =>
    rw [bind_of_ok h]
    constructor
    · intro h₂
      exact ⟨a, s₁, rfl, h₂⟩
    · rintro ⟨a', s', h', h₂⟩
      cases h'
      exact h₂
  | error e s₁ =>
    rw [bind_of_error h]
    simp

/-- A sequence breaks off exactly if its first step does, or its second one behind a result of the
first. -/
theorem bind_eq_error {s s₂ : σ} {e : ε} :
    (p >>= f) s = .error e s₂ ↔
      p s = .error e s₂ ∨ ∃ a s₁, p s = .ok a s₁ ∧ f a s₁ = .error e s₂ := by
  cases h : p s with
  | ok a s₁ =>
    rw [bind_of_ok h]
    constructor
    · intro h₂
      exact .inr ⟨a, s₁, rfl, h₂⟩
    · rintro (h' | ⟨a', s', h', h₂⟩)
      · exact absurd h' (by simp)
      · cases h'
        exact h₂
  | error e' s₁ =>
    rw [bind_of_error h]
    simp

/-- Two sequences agree if their first steps do, and their second ones behind every result of the
first. -/
theorem bind_congr_at {q : EStateM ε σ α} {g : α → EStateM ε σ β} {s : σ} (hp : p s = q s)
    (hf : ∀ a s₁, q s = .ok a s₁ → f a s₁ = g a s₁) : (p >>= f) s = (q >>= g) s := by
  cases h : q s with
  | ok a s₁ => rw [bind_of_ok (hp.trans h), bind_of_ok h, hf a s₁ h]
  | error e s₁ => rw [bind_of_error (hp.trans h), bind_of_error h]

/-- What a sequence does depends on its first step only in how that one ends. -/
theorem bind_congr_state {q : EStateM ε σ α} {s t : σ} (h : p s = q t) :
    (p >>= f) s = (q >>= f) t := by
  change EStateM.bind p f s = EStateM.bind q f t
  rw [EStateM.bind, EStateM.bind, h]

@[simp] theorem throw_apply (e : ε) (s : σ) : (throw e : EStateM ε σ α) s = .error e s := rfl

/-! ## What holds of every result -/

/-- Every result of `p` satisfies `Q`. -/
def Ensures (p : EStateM ε σ α) (Q : α → Prop) : Prop := ∀ s a s₁, p s = .ok a s₁ → Q a

theorem Ensures.pure {Q : α → Prop} {a : α} (h : Q a) :
    Ensures (pure a : EStateM ε σ α) Q := by
  intro s a' s₁ h'
  cases h'
  exact h

/-- The second step may rely on what the first one ensures. -/
theorem Ensures.bind {Q : α → Prop} {R : β → Prop} (hp : Ensures p Q)
    (hf : ∀ a, Q a → Ensures (f a) R) : Ensures (p >>= f) R := by
  intro s b s₂ h
  obtain ⟨a, s₁, h₁, h₂⟩ := bind_eq_ok.mp h
  exact hf a (hp s a s₁ h₁) s₁ b s₂ h₂

theorem Ensures.trivial (p : EStateM ε σ α) : Ensures p fun _ => True :=
  fun _ _ _ _ => True.intro

/-- A sequence ensures what its second step ensures behind any result of the first. -/
theorem Ensures.after {R : β → Prop} (hf : ∀ a, Ensures (f a) R) : Ensures (p >>= f) R :=
  (Ensures.trivial p).bind fun a _ => hf a

/-! ## What holds of every reason to break off -/

/-- If `p` breaks off, the reason satisfies `Q`. -/
def Breaks (p : EStateM ε σ α) (Q : ε → Prop) : Prop := ∀ s e s₁, p s = .error e s₁ → Q e

theorem Breaks.pure {Q : ε → Prop} (a : α) : Breaks (pure a : EStateM ε σ α) Q := by
  intro s e s₁ h
  cases h

/-- A step that always has a result does not break off. -/
theorem Breaks.of_ok {Q : ε → Prop} (h : ∀ s, ∃ a s₁, p s = .ok a s₁) : Breaks p Q := by
  intro s e s₁ he
  obtain ⟨a, s₂, hok⟩ := h s
  rw [hok] at he
  cases he

theorem Breaks.throw {Q : ε → Prop} {e : ε} (h : Q e) : Breaks (throw e : EStateM ε σ α) Q := by
  intro s e' s₁ h'
  cases h'
  exact h

/-- Two steps in a row break off only as one of them does. -/
theorem Breaks.bind {Q : ε → Prop} (hp : Breaks p Q) (hf : ∀ a, Breaks (f a) Q) :
    Breaks (p >>= f) Q := by
  intro s e s₂ h
  rcases bind_eq_error.mp h with h₁ | ⟨a, s₁, -, h₂⟩
  · exact hp s e s₂ h₁
  · exact hf a s₁ e s₂ h₂

/-! ## How the state is changed -/

/-- The state in which a step ends, whether or not it breaks off. -/
def endState : EStateM.Result ε σ α → σ
  | .ok _ s => s
  | .error _ s => s

@[simp] theorem endState_ok (a : α) (s : σ) : endState (.ok a s : EStateM.Result ε σ α) = s := rfl

@[simp] theorem endState_error (e : ε) (s : σ) :
    endState (.error e s : EStateM.Result ε σ α) = s := rfl

/-- The same outcome with another state. -/
def mapState {τ : Type} (g : σ → τ) : EStateM.Result ε σ α → EStateM.Result ε τ α
  | .ok a s => .ok a (g s)
  | .error e s => .error e (g s)

@[simp] theorem mapState_ok {τ : Type} (g : σ → τ) (a : α) (s : σ) :
    mapState g (.ok a s : EStateM.Result ε σ α) = .ok a (g s) := rfl

@[simp] theorem mapState_error {τ : Type} (g : σ → τ) (e : ε) (s : σ) :
    mapState g (.error e s : EStateM.Result ε σ α) = .error e (g s) := rfl

/-- Whatever comes of `p`, the state before and the state after are related by `R`. -/
def Frames (R : σ → σ → Prop) (p : EStateM ε σ α) : Prop := ∀ s, R s (endState (p s))

section

variable {R : σ → σ → Prop} [IsPreorder σ R]

theorem Frames.pure (a : α) : Frames R (pure a : EStateM ε σ α) := fun s => refl_of R s

theorem Frames.throw (e : ε) : Frames R (throw e : EStateM ε σ α) := fun s => refl_of R s

/-- A relation that each step keeps is kept by both in a row. -/
theorem Frames.bind (hp : Frames R p) (hf : ∀ a, Frames R (f a)) : Frames R (p >>= f) := by
  intro s
  have h₁ := hp s
  cases h : p s with
  | ok a s₁ =>
    rw [h] at h₁
    rw [bind_of_ok h]
    exact trans_of R h₁ (hf a s₁)
  | error e s₁ =>
    rw [h] at h₁
    rw [bind_of_error h]
    exact h₁

omit [IsPreorder σ R] in
/-- It holds between the states in front of and behind a result. -/
theorem Frames.of_ok (hp : Frames R p) {s s₁ : σ} {a : α} (h : p s = .ok a s₁) : R s s₁ := by
  have h₁ := hp s
  rw [h] at h₁
  exact h₁

omit [IsPreorder σ R] in
/-- It also holds where the step breaks off. -/
theorem Frames.of_error (hp : Frames R p) {s s₁ : σ} {e : ε} (h : p s = .error e s₁) :
    R s s₁ := by
  have h₁ := hp s
  rw [h] at h₁
  exact h₁

end

/-- If the first state has a property, then so has the second one. -/
def Keeps (P : σ → Prop) (s s' : σ) : Prop := P s → P s'

instance (P : σ → Prop) : IsPreorder σ (Keeps P) where
  refl _ h := h
  trans _ _ _ h₁ h₂ h := h₂ (h₁ h)

/-! ## Steps on different states -/

/-- Two outcomes are the same, in related states. -/
inductive Alike {τ : Type} (R : σ → τ → Prop) :
    EStateM.Result ε σ α → EStateM.Result ε τ α → Prop where
  | ok {a : α} {s : σ} {t : τ} (h : R s t) : Alike R (.ok a s) (.ok a t)
  | error {e : ε} {s : σ} {t : τ} (h : R s t) : Alike R (.error e s) (.error e t)

theorem Alike.endState {τ : Type} {R : σ → τ → Prop} {r : EStateM.Result ε σ α}
    {r' : EStateM.Result ε τ α} (h : Alike R r r') : R (endState r) (endState r') := by
  cases h with
  | ok h => exact h
  | error h => exact h

/-- In related states the two steps have the same outcome, and the states remain related. -/
def Simulates {τ : Type} (R : σ → τ → Prop) (p : EStateM ε σ α) (q : EStateM ε τ α) : Prop :=
  ∀ s t, R s t → Alike R (p s) (q t)

section

variable {τ : Type} {R : σ → τ → Prop} {q : EStateM ε τ α} {g : α → EStateM ε τ β}

theorem Simulates.pure (a : α) :
    Simulates R (pure a : EStateM ε σ α) (pure a : EStateM ε τ α) :=
  fun _ _ h => .ok h

theorem Simulates.throw (e : ε) :
    Simulates R (throw e : EStateM ε σ α) (throw e : EStateM ε τ α) :=
  fun _ _ h => .error h

/-- Two steps in a row are simulated step by step. -/
theorem Simulates.bind (hp : Simulates R p q) (hf : ∀ a, Simulates R (f a) (g a)) :
    Simulates R (p >>= f) (q >>= g) := by
  intro s t hst
  have h₁ := hp s t hst
  generalize hr : p s = r at h₁
  generalize hr' : q t = r' at h₁
  cases h₁ with
  | @ok a s₁ t₁ h =>
    rw [bind_of_ok hr, bind_of_ok hr']
    exact hf a s₁ t₁ h
  | error h =>
    rw [bind_of_error hr, bind_of_error hr']
    exact .error h

end

/-! ## Steps with other results -/

/-- The second outcome is the first one with its result or reason translated, in a related state. -/
inductive Translated {τ : Type} (R : σ → τ → Prop) (η : ε → ε) (φ : α → α) :
    EStateM.Result ε σ α → EStateM.Result ε τ α → Prop where
  | ok {a : α} {s : σ} {t : τ} (h : R s t) : Translated R η φ (.ok a s) (.ok (φ a) t)
  | error {e : ε} {s : σ} {t : τ} (h : R s t) : Translated R η φ (.error e s) (.error (η e) t)

/-- In related states the outcome of the second step is that of the first one, translated. -/
def Translates {τ : Type} (R : σ → τ → Prop) (η : ε → ε) (φ : α → α) (p : EStateM ε σ α)
    (q : EStateM ε τ α) : Prop :=
  ∀ s t, R s t → Translated R η φ (p s) (q t)

namespace Translates

variable {τ : Type} {R : σ → τ → Prop} {η : ε → ε} {φ : α → α} {ψ : β → β}
  {q : EStateM ε τ α} {g : α → EStateM ε τ β}

theorem pure (a : α) :
    Translates R η φ (pure a : EStateM ε σ α) (pure (φ a) : EStateM ε τ α) :=
  fun _ _ h => .ok h

theorem throw (e : ε) :
    Translates R η φ (throw e : EStateM ε σ α) (throw (η e) : EStateM ε τ α) :=
  fun _ _ h => .error h

/-- In a sequence, the second step may rely on what the first one ensures. -/
theorem bind_ensured {Q : α → Prop} (hp : Translates R η φ p q) (hQ : Ensures p Q)
    (hf : ∀ a, Q a → Translates R η ψ (f a) (g (φ a))) :
    Translates R η ψ (p >>= f) (q >>= g) := by
  intro s t hst
  have h₁ := hp s t hst
  generalize hr : p s = r at h₁
  generalize hr' : q t = r' at h₁
  cases h₁ with
  | @ok a s₁ t₁ h =>
    rw [bind_of_ok hr, bind_of_ok hr']
    exact hf a (hQ s a s₁ hr) s₁ t₁ h
  | error h =>
    rw [bind_of_error hr, bind_of_error hr']
    exact .error h

theorem bind (hp : Translates R η φ p q) (hf : ∀ a, Translates R η ψ (f a) (g (φ a))) :
    Translates R η ψ (p >>= f) (q >>= g) :=
  hp.bind_ensured (.trivial p) fun a _ => hf a

/-- A choice is translated if both of its ways are. -/
theorem choice {p' : EStateM ε σ α} {q' : EStateM ε τ α} {c : Prop} [Decidable c]
    (hp : Translates R η φ p q) (hp' : Translates R η φ p' q') :
    Translates R η φ (if c then p else p') (if c then q else q') := by
  split
  · exact hp
  · exact hp'

end Translates

end LoxScript
