import LoxScript.Machine.Execute
import LoxScript.Proofs.Machine.Sequence

/-!
# Grouping has no effect

Parentheses say how a program is to be read, and once it is read they do nothing: an expression in
parentheses is evaluated as the expression within them. The one thing they cost is room on the stack. So
trees that are the same without their groupings do the same, in every state and with any room, unless one
of them exhausts the stack (`Stmt.execAll_of_bare`).

To compare two such trees, each is compared with the tree that has no groupings at all. That one gets by
with less room; where a tree with groupings does not exhaust the stack, it has the same outcome
(`Shadows`).
-/

namespace LoxScript

/-! ## Trees without groupings -/

/-- The expression without its groupings. -/
def Expr.bare : Expr → Expr
  | grouping e _ => e.bare
  | unary op e l => .unary op e.bare l
  | binary e op f l => .binary e.bare op f.bare l
  | logical e op f l => .logical e.bare op f.bare l
  | assign name e l => .assign name e.bare l
  | e => e

namespace Stmt

mutual

/-- The statement without groupings in its expressions. An expression statement is on the line of its
expression. -/
def bare : Stmt → Stmt
  | expression e _ => .expression e.bare e.bare.line
  | print e l => .print e.bare l
  | declare name first l => .declare name (first.map Expr.bare) l
  | block body l => .block (bareAll body) l
  | ifThen c s l => .ifThen c.bare s.bare l
  | ifElse c s t l => .ifElse c.bare s.bare t.bare l
  | loop c s l => .loop c.bare s.bare l
  | malformed kind l => .malformed kind l

/-- Statements in a row without groupings. -/
def bareAll : List Stmt → List Stmt
  | [] => []
  | s :: ss => s.bare :: bareAll ss

end

end Stmt

/-! ## Outcomes without an exhausted stack -/

section

variable {σ τ α β : Type}

/-- The stack is exhausted. -/
def Exhausted (r : EStateM.Result Halt σ α) : Prop := ∃ s, r = .error .overflow s

/-- In related states, the first step exhausts the stack, or the second one has the same outcome and the
states remain related. -/
def Shadows (R : σ → τ → Prop) (p : EStateM Halt σ α) (q : EStateM Halt τ α) : Prop :=
  ∀ s t, R s t → Exhausted (p s) ∨ Alike R (p s) (q t)

namespace Shadows

variable {R : σ → τ → Prop} {p : EStateM Halt σ α} {q : EStateM Halt τ α}
  {f : α → EStateM Halt σ β} {g : α → EStateM Halt τ β}

theorem pure (a : α) : Shadows R (pure a) (pure a) := fun _ _ h => .inr (.ok h)

/-- What exhausts the stack may be compared with anything. -/
theorem exhausted (q : EStateM Halt τ α) : Shadows R (throw .overflow : EStateM Halt σ α) q :=
  fun s _ _ => .inl ⟨s, rfl⟩

theorem throw (e : Halt) :
    Shadows R (throw e : EStateM Halt σ α) (throw e : EStateM Halt τ α) :=
  fun _ _ h => .inr (.error h)

theorem bind (hp : Shadows R p q) (hf : ∀ a, Shadows R (f a) (g a)) :
    Shadows R (p >>= f) (q >>= g) := by
  intro s t hst
  rcases hp s t hst with ⟨s₁, hs₁⟩ | halike
  · exact .inl ⟨s₁, bind_of_error hs₁⟩
  · generalize hr : p s = r at halike
    generalize hr' : q t = r' at halike
    cases halike with
    | @ok a s₁ t₁ h =>
      rw [bind_of_ok hr, bind_of_ok hr']
      exact hf a s₁ t₁ h
    | error h =>
      rw [bind_of_error hr, bind_of_error hr']
      exact .inr (.error h)

/-- Without room the stack is exhausted at once. -/
theorem of_room {p : Nat → EStateM Halt σ α} {q : Nat → EStateM Halt τ α}
    (hzero : p 0 = MonadExcept.throw .overflow)
    (hsucc : ∀ n n', n ≤ n' → Shadows R (p (n + 1)) (q (n' + 1))) {room room' : Nat}
    (h : room ≤ room') : Shadows R (p room) (q room') := by
  cases room with
  | zero =>
    rw [hzero]
    exact .exhausted _
  | succ room =>
    obtain ⟨room', rfl⟩ := Nat.exists_eq_add_of_le' (Nat.lt_of_lt_of_le (Nat.succ_pos room) h)
    exact hsucc room room' (Nat.le_of_succ_le_succ h)

end Shadows

end

/-- Without a state to compare, results that are alike are the same. -/
theorem alike_eq_iff {ε σ α : Type} {r r' : EStateM.Result ε σ α} : Alike Eq r r' ↔ r = r' := by
  constructor
  · rintro (⟨rfl⟩ | ⟨rfl⟩) <;> rfl
  · rintro rfl
    cases r with
    | ok a s => exact .ok rfl
    | error e s => exact .error rfl

/-! ## Evaluation -/

theorem Shadows.refl {σ α : Type} (p : EStateM Halt σ α) : Shadows Eq p p := by
  rintro s _ rfl
  exact .inr (alike_eq_iff.mpr rfl)

/-- Without room, both evaluations exhaust the stack, so that only the case with some room is left.
-/
theorem Expr.shadows_eval {trap : String → Bool} {e f : Expr}
    (hsucc : ∀ n n', n ≤ n' → Shadows Eq (e.eval trap (n + 1)) (f.eval trap (n' + 1)))
    {room room' : Nat} (h : room ≤ room') : Shadows Eq (e.eval trap room) (f.eval trap room') :=
  .of_room (p := (e.eval trap ·)) (q := (f.eval trap ·)) (eval_zero trap e) hsucc h

/-- Without its groupings an expression takes no more room, and it evaluates to the same. -/
theorem Expr.eval_bare (trap : String → Bool) {room room' : Nat} (h : room ≤ room') (e : Expr) :
    Shadows Eq (e.eval trap room) (e.bare.eval trap room') := by
  refine shadows_eval ?_ h
  clear h
  induction e with
  | grouping e l ih => exact fun n n' hn => shadows_eval ih (Nat.le_succ_of_le hn)
  | literal _ _ | read _ _ | malformed _ _ => exact fun n n' _ => .refl _
  | unary op e l ih | assign name e l ih =>
    exact fun n n' hn => (shadows_eval ih hn).bind fun v => .refl _
  | binary e op f l ihe ihf =>
    exact fun n n' hn => (shadows_eval ihe hn).bind fun v => (shadows_eval ihf hn).bind fun w =>
      .refl _
  | logical e op f l ihe ihf =>
    intro n n' hn
    refine (shadows_eval ihe hn).bind fun v => ?_
    split
    · exact .refl _
    · exact shadows_eval ihf hn

/-! ## Execution -/

/-- The machines have the same scopes and have printed the same. They may be on different lines. -/
structure Machine.Matches (m m' : Machine) : Prop where
  chain : m'.chain = m.chain
  output : m'.output = m.output

namespace Exec

variable {b : Bounds} {room room' : Nat}

theorem shadows_start (l l' : Int) : Shadows Machine.Matches (start l) (start l') :=
  fun _ _ h => .inr (.ok ⟨h.chain, h.output⟩)

theorem shadows_define (name : String) (v : Value) :
    Shadows Machine.Matches (define name v) (define name v) := by
  intro m m' h
  refine .inr (.ok ⟨?_, h.output⟩)
  show m'.chain.define name v = m.chain.define name v
  rw [h.chain]

theorem shadows_print (v : Value) : Shadows Machine.Matches (print v) (print v) := by
  intro m m' h
  refine .inr (.ok ⟨h.chain, ?_⟩)
  show m'.output ++ Text.line v.display = m.output ++ Text.line v.display
  rw [h.output]

/-- An expression without its groupings needs no more room than before. -/
theorem shadows_value (h : room ≤ room') (e : Expr) :
    Shadows Machine.Matches (value b room e) (value b room' e.bare) := by
  intro m m' hm
  unfold value ofEval
  rcases e.eval_bare b.trap h m.chain m'.chain hm.chain.symm with ⟨c, hc⟩ | halike
  · exact .inl ⟨{ m with chain := c }, by rw [hc]⟩
  · rw [← alike_eq_iff.mp halike]
    cases e.eval b.trap room m.chain with
    | ok v c => exact .inr (.ok ⟨rfl, hm.output⟩)
    | error halt c => exact .inr (.error ⟨rfl, hm.output⟩)

theorem shadows_holds (h : room ≤ room') (c : Expr) :
    Shadows Machine.Matches (holds b room c) (holds b room' c.bare) :=
  (shadows_value h c).bind fun v => .pure v.truthy

/-- What is executed in a scope of its own is compared there. -/
theorem shadows_inScope {body body' : Exec Unit} (h : Shadows Machine.Matches body body') :
    Shadows Machine.Matches (inScope body) (inScope body') := by
  intro m m' hm
  have henter : Machine.Matches { m with chain := m.chain.enter }
      { m' with chain := m'.chain.enter } := ⟨congrArg Chain.enter hm.chain, hm.output⟩
  unfold inScope
  rcases h _ _ henter with ⟨m₁, hm₁⟩ | halike
  · exact .inl ⟨{ m₁ with chain := m₁.chain.leave }, by rw [hm₁]⟩
  · generalize body { m with chain := m.chain.enter } = r at halike
    generalize body' { m' with chain := m'.chain.enter } = r' at halike
    cases halike with
    | ok h => exact .inr (.ok ⟨congrArg Chain.leave h.chain, h.output⟩)
    | error h => exact .inr (.error ⟨congrArg Chain.leave h.chain, h.output⟩)

/-- Loops are compared turn by turn. -/
theorem shadows_repeatWhile {test test' : Exec Bool} {body body' : Exec Unit}
    (ht : Shadows Machine.Matches test test') (hb : Shadows Machine.Matches body body')
    (turns : Nat) :
    Shadows Machine.Matches (repeatWhile test body turns) (repeatWhile test' body' turns) := by
  induction turns with
  | zero => exact .throw _
  | succ turns ih =>
    refine ht.bind fun goesOn => ?_
    split
    · exact hb.bind fun _ => ih
    · exact .pure _

end Exec

namespace Stmt

variable {b : Bounds}

open Exec

/-- Without room, both executions exhaust the stack. -/
theorem shadows_exec {s t : Stmt}
    (hsucc : ∀ n n', n ≤ n' → Shadows Machine.Matches (s.exec b (n + 1)) (t.exec b (n' + 1)))
    {room room' : Nat} (h : room ≤ room') :
    Shadows Machine.Matches (s.exec b room) (t.exec b room') :=
  .of_room (p := (s.exec b ·)) (q := (t.exec b ·)) (exec_zero b s) hsucc h

mutual

/-- Without groupings in its expressions a statement takes no more room, and it does the same. -/
theorem exec_bare {room room' : Nat} (h : room ≤ room') (s : Stmt) :
    Shadows Machine.Matches (s.exec b room) (s.bare.exec b room') := by
  refine shadows_exec (fun n n' hn => ?_) h
  cases s with
  | expression e l => exact (shadows_start _ _).bind fun _ => (shadows_value hn e).bind fun _ => .pure _
  | print e l =>
    exact (shadows_start _ _).bind fun _ => (shadows_value hn e).bind fun v => shadows_print v
  | declare name first l =>
    cases first with
    | none => exact (shadows_start _ _).bind fun _ => shadows_define _ _
    | some e =>
      exact (shadows_start _ _).bind fun _ => (shadows_value hn e).bind fun v => shadows_define _ v
  | block body l => exact (shadows_start _ _).bind fun _ => shadows_inScope (execAll_bare hn body)
  | ifThen c s l =>
    refine (shadows_start _ _).bind fun _ => (shadows_holds hn c).bind fun v => ?_
    split
    · exact exec_bare hn s
    · exact .pure _
  | ifElse c s t l =>
    refine (shadows_start _ _).bind fun _ => (shadows_holds hn c).bind fun v => ?_
    split
    · exact exec_bare hn s
    · exact exec_bare hn t
  | loop c s l =>
    exact (shadows_start _ _).bind fun _ =>
      shadows_repeatWhile (shadows_holds hn c) (exec_bare hn s) b.turns
  | malformed kind l => exact (shadows_start _ _).bind fun _ => .throw _

/-- Statements in a row are compared one after another. -/
theorem execAll_bare {room room' : Nat} (h : room ≤ room') (ss : List Stmt) :
    Shadows Machine.Matches (execAll b room ss) (execAll b room' (bareAll ss)) := by
  cases ss with
  | nil => exact .pure _
  | cons s ss => exact (exec_bare h s).bind fun _ => execAll_bare h ss

end

end Stmt

/-! ## Trees that differ in their groupings -/

section

variable {σ τ α : Type} {R : σ → τ → Prop} {S : σ → σ → Prop}

/-- Two outcomes that are alike to a third one are alike. -/
theorem Alike.join (hS : ∀ s s' t, R s t → R s' t → S s s') {r r' : EStateM.Result Halt σ α}
    {r₀ : EStateM.Result Halt τ α} (h : Alike R r r₀) (h' : Alike R r' r₀) : Alike S r r' := by
  cases h with
  | ok h =>
    cases h' with
    | ok h' => exact .ok (hS _ _ _ h h')
  | error h =>
    cases h' with
    | error h' => exact .error (hS _ _ _ h h')

/-- Two steps that are shadowed by one have the same outcome, unless one of them exhausts the stack. -/
theorem Shadows.both {p q : EStateM Halt σ α} {p₀ : EStateM Halt τ α} (hp : Shadows R p p₀)
    (hq : Shadows R q p₀) (hS : ∀ s s' t, R s t → R s' t → S s s') {s s' : σ} {t : τ} (hs : R s t)
    (hs' : R s' t) : Exhausted (p s) ∨ Exhausted (q s') ∨ Alike S (p s) (q s') := by
  rcases hp s t hs with hp | hp
  · exact .inl hp
  · rcases hq s' t hs' with hq | hq
    · exact .inr (.inl hq)
    · exact .inr (.inr (hp.join hS hq))

end

/-- Expressions that are the same without their groupings evaluate to the same, unless the stack is
exhausted. -/
theorem Expr.eval_of_bare (trap : String → Bool) {e f : Expr} (h : e.bare = f.bare)
    (room room' : Nat) (c : Chain) :
    Exhausted (e.eval trap room c) ∨ Exhausted (f.eval trap room' c) ∨
      e.eval trap room c = f.eval trap room' c := by
  have he := e.eval_bare trap (Nat.le_max_left room room')
  have hf := f.eval_bare trap (Nat.le_max_right room room')
  rw [← h] at hf
  rw [← alike_eq_iff]
  exact he.both hf (fun _ _ _ hs hs' => hs.trans hs'.symm) rfl rfl

/-- Statements that are the same without their groupings do the same on machines that match, unless the
stack is exhausted. -/
theorem Stmt.execAll_of_bare (b : Bounds) {ss ts : List Stmt} (h : bareAll ss = bareAll ts)
    (room room' : Nat) {m m' : Machine} (hm : m.Matches m') :
    Exhausted (execAll b room ss m) ∨ Exhausted (execAll b room' ts m') ∨
      Alike Machine.Matches (execAll b room ss m) (execAll b room' ts m') := by
  have hss := execAll_bare (b := b) (Nat.le_max_left room room') ss
  have hts := execAll_bare (b := b) (Nat.le_max_right room room') ts
  rw [← h] at hts
  refine hss.both hts (fun s s' t hs hs' => ⟨?_, ?_⟩) hm ⟨rfl, rfl⟩
  · exact hs'.chain.symm.trans hs.chain
  · exact hs'.output.symm.trans hs.output

end LoxScript
