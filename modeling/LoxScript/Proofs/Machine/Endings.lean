import LoxScript.Proofs.Grammar.Construction
import LoxScript.Proofs.Machine.Sequence

/-!
# How executions end

Execution breaks off for reasons of two sorts: an error of the program or an exhausted resource, and a
node of the tree that means nothing. The second sort needs a tree that was built by hand: the operators
of a well-built tree are ones that the operations on values know, and its nodes are ones that
evaluation and execution know. So evaluating a well-built expression breaks off only for an error of
the program or for want of stack (`breaks_eval`), and executing well-built statements only for these
reasons or because a loop has used up its turns (`breaks_execAll`).
-/

namespace LoxScript

namespace Halt

/-- An error of the program, or an exhausted stack. -/
def Ordinary (h : Halt) : Prop := (∃ e, h = error e) ∨ h = overflow

/-- An ordinary reason, or a loop that has used up its turns. -/
def Expected (h : Halt) : Prop := h.Ordinary ∨ h = unfinished

theorem Ordinary.error (e : RuntimeError) : (Halt.error e).Ordinary := .inl ⟨e, rfl⟩

theorem Ordinary.overflow : Halt.overflow.Ordinary := .inr rfl

end Halt

/-- If an operation has no result, the reason is an ordinary one. -/
def ExceptOrdinary (r : Except Halt Value) : Prop := ∀ h, r = .error h → h.Ordinary

/-! ## Operations -/

namespace Value

/-- A prefix operator knows all values, or breaks off for an error of the program. -/
theorem ordinary_unary {op : Token} (hop : op.kind = .bang ∨ op.kind = .minus) (v : Value) :
    ExceptOrdinary (unary op v) := by
  intro h hr
  unfold unary at hr
  rcases hop with hop | hop
  · rw [hop] at hr
    cases hr
  · rw [hop] at hr
    cases v <;> cases hr <;> exact .error _

theorem ordinary_add (op : Token) (v w : Value) : ExceptOrdinary (add op v w) := by
  intro h hr
  unfold add at hr
  split at hr <;> cases hr
  exact .error _

/-- Every operator of a tier that is no connective is known to `binary`. -/
theorem ordinary_binary {op : Token} {tier : Tier} (hop : Tier.of? op.kind = some tier)
    (htier : tier.connects = false) (v w : Value) : ExceptOrdinary (binary op v w) := by
  intro h hr
  have hadd := ordinary_add op v w
  unfold binary numeric at hr
  cases hk : op.kind with
  | plus =>
    rw [hk] at hr
    exact hadd h hr
  | equalEqual | bangEqual =>
    rw [hk] at hr
    cases hr
  | minus | star | slash | greater | greaterEqual | less | lessEqual =>
    simp only [hk] at hr
    split at hr <;> cases hr
    exact .error _
  | _ =>
    rw [hk] at hop
    cases hop <;> cases htier

end Value

/-! ## Evaluation -/

theorem breaks_ofExcept {r : Except Halt Value} (hr : ExceptOrdinary r) :
    Breaks (Eval.ofExcept r) Halt.Ordinary := by
  cases r with
  | ok v => exact .pure v
  | error h => exact .throw (hr h rfl)

/-- A variable that is not defined is an error of the program. -/
theorem breaks_read (trap : String → Bool) (name : Token) :
    Breaks (Eval.read trap name) Halt.Ordinary := by
  intro c h c₁ hr
  unfold Eval.read at hr
  split at hr
  · cases hr
    exact .overflow
  · split at hr <;> cases hr
    exact .error _

theorem breaks_assign (name : Token) (v : Value) : Breaks (Eval.assign name v) Halt.Ordinary := by
  intro c h c₁ hr
  unfold Eval.assign at hr
  split at hr <;> cases hr
  exact .error _

/-- A well-built expression has no node that evaluation does not know. -/
theorem breaks_eval (trap : String → Bool) (room : Nat) {e : Expr} (he : e.WellBuilt) :
    Breaks (e.eval trap room) Halt.Ordinary := by
  induction room generalizing e with
  | zero =>
    rw [eval_zero]
    exact .throw .overflow
  | succ room ih =>
    cases e with
    | literal v _ => exact .pure v
    | grouping e _ =>
      have hinner : e.WellBuilt := he
      exact ih hinner
    | read name _ => exact breaks_read trap name
    | assign name e _ =>
      have hvalue : e.WellBuilt := he
      exact (ih hvalue).bind fun v => (breaks_assign name v).bind fun _ => .pure v
    | logical l op r _ =>
      refine (ih he.2.1).bind fun v => ?_
      split
      · exact .pure v
      · exact ih he.2.2
    | unary op e _ =>
      exact (ih he.2).bind fun v => breaks_ofExcept (Value.ordinary_unary he.1 v)
    | binary l op r _ =>
      obtain ⟨⟨tier, hop, htier⟩, hl, hr⟩ := he
      exact (ih hl).bind fun v => (ih hr).bind fun w =>
        breaks_ofExcept (Value.ordinary_binary hop htier v w)
    | malformed _ _ => exact he.elim

/-! ## Execution -/

theorem breaks_value (b : Bounds) (room : Nat) {e : Expr} (he : e.WellBuilt) :
    Breaks (Exec.value b room e) Halt.Ordinary := by
  intro m h m₁ hr
  unfold Exec.value Exec.ofEval at hr
  split at hr
  · cases hr
  · next heval =>
    cases hr
    exact breaks_eval b.trap room he _ _ _ heval

theorem breaks_holds (b : Bounds) (room : Nat) {e : Expr} (he : e.WellBuilt) :
    Breaks (Exec.holds b room e) Halt.Ordinary :=
  (breaks_value b room he).bind fun v => .pure v.truthy

/-- A scope that is opened and closed again adds no reason to break off. -/
theorem breaks_inScope {Q : Halt → Prop} {body : Exec Unit} (hb : Breaks body Q) :
    Breaks (Exec.inScope body) Q := by
  intro m h m₁ hr
  unfold Exec.inScope at hr
  split at hr
  · cases hr
  · next he =>
    cases hr
    exact hb _ _ _ he

/-- A loop adds the one that its turns are used up. -/
theorem breaks_repeatWhile {Q : Halt → Prop} (hQ : Q .unfinished) {test : Exec Bool}
    {body : Exec Unit} (ht : Breaks test Q) (hb : Breaks body Q) (turns : Nat) :
    Breaks (Exec.repeatWhile test body turns) Q := by
  induction turns with
  | zero => exact .throw hQ
  | succ turns ih =>
    refine ht.bind fun goes => ?_
    split
    · exact hb.bind fun _ => ih
    · exact .pure ()

theorem breaks_start {Q : Halt → Prop} (line : Int) : Breaks (Exec.start line) Q :=
  .of_ok fun _ => ⟨(), _, rfl⟩

theorem breaks_print {Q : Halt → Prop} (v : Value) : Breaks (Exec.print v) Q :=
  .of_ok fun _ => ⟨(), _, rfl⟩

theorem breaks_define {Q : Halt → Prop} (name : String) (v : Value) :
    Breaks (Exec.define name v) Q :=
  .of_ok fun _ => ⟨(), _, rfl⟩

/-- What breaks off for ordinary reasons does so for expected ones. -/
theorem Breaks.expected {α : Type} {p : Exec α} (hp : Breaks p Halt.Ordinary) :
    Breaks p Halt.Expected :=
  fun m h m₁ hr => .inl (hp m h m₁ hr)

mutual

/-- A well-built statement has no node that execution does not know. -/
theorem breaks_exec (b : Bounds) (room : Nat) (s : Stmt) (hs : s.WellBuilt) :
    Breaks (s.exec b room) Halt.Expected := by
  cases room with
  | zero =>
    rw [exec_zero]
    exact .throw (.inl .overflow)
  | succ room =>
    cases s with
    | expression e line =>
      exact (breaks_start line).bind fun _ => (breaks_value b room hs).expected.bind fun _ => .pure ()
    | print e line =>
      exact (breaks_start line).bind fun _ => (breaks_value b room hs).expected.bind fun v =>
        breaks_print v
    | declare name first line =>
      cases first with
      | none => exact (breaks_start line).bind fun _ => breaks_define _ _
      | some e =>
        exact (breaks_start line).bind fun _ =>
          (breaks_value b room (hs e rfl)).expected.bind fun v => breaks_define _ v
    | block body line =>
      exact (breaks_start line).bind fun _ => breaks_inScope (breaks_execAll b room body hs)
    | ifThen c s line =>
      refine (breaks_start line).bind fun _ => (breaks_holds b room hs.1).expected.bind fun _ => ?_
      split
      · exact breaks_exec b room s hs.2
      · exact .pure ()
    | ifElse c s t line =>
      refine (breaks_start line).bind fun _ => (breaks_holds b room hs.1).expected.bind fun _ => ?_
      split
      · exact breaks_exec b room s hs.2.1
      · exact breaks_exec b room t hs.2.2
    | loop c s line =>
      exact (breaks_start line).bind fun _ => breaks_repeatWhile (.inr rfl)
        (breaks_holds b room hs.1).expected (breaks_exec b room s hs.2) b.turns
    | malformed kind line => exact hs.elim

theorem breaks_execAll (b : Bounds) (room : Nat) (ss : List Stmt) (hss : Stmt.WellBuiltAll ss) :
    Breaks (Stmt.execAll b room ss) Halt.Expected := by
  cases ss with
  | nil => exact .pure ()
  | cons s ss =>
    exact (breaks_exec b room s hss.1).bind fun _ => breaks_execAll b room ss hss.2

end

end LoxScript
