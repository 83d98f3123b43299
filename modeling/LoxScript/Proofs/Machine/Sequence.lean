import LoxScript.Machine.Execute
import LoxScript.Proofs.Sequencing

/-!
# Execution in sequence

Without room nothing is evaluated or executed, and statements in two parts are executed one part
after the other. What the parts of a loop do to the state, the loop does as well; evaluation changes
only the scopes of a machine, and a block ends with the innermost of its scopes closed.
-/

namespace LoxScript

/-- Without room, nothing is evaluated. -/
theorem eval_zero (trap : String → Bool) (e : Expr) : e.eval trap 0 = throw .overflow := by
  cases e <;> rfl

/-- Without room, nothing is executed. -/
theorem exec_zero (b : Bounds) (s : Stmt) : s.exec b 0 = throw .overflow := by
  cases s <;> rfl

theorem frames_ofExcept {α : Type} {R : Chain → Chain → Prop} [IsPreorder Chain R]
    (r : Except Halt α) : Frames R (Eval.ofExcept r) := by
  cases r with
  | ok a => exact .pure a
  | error h => exact .throw h

/-- Whether or not an evaluation breaks off, it changes nothing of a machine but its scopes. -/
theorem endState_value (b : Bounds) (room : Nat) (e : Expr) (m : Machine) :
    endState (Exec.value b room e m) = { m with chain := endState (e.eval b.trap room m.chain) } := by
  unfold Exec.value Exec.ofEval
  cases e.eval b.trap room m.chain <;> rfl

/-- Whether or not a block breaks off, its scope is closed behind it. -/
theorem endState_inScope (body : Exec Unit) (m : Machine) :
    endState (Exec.inScope body m) =
      { endState (body { m with chain := m.chain.enter }) with
        chain := (endState (body { m with chain := m.chain.enter })).chain.leave } := by
  unfold Exec.inScope
  cases body { m with chain := m.chain.enter } <;> rfl

/-- What a test and a body keep is kept by a loop of them. -/
theorem frames_repeatWhile {R : Machine → Machine → Prop} [IsPreorder Machine R]
    {test : Exec Bool} {body : Exec Unit} (ht : Frames R test) (hb : Frames R body) (turns : Nat) :
    Frames R (Exec.repeatWhile test body turns) := by
  induction turns with
  | zero => exact .throw _
  | succ turns ih =>
    refine ht.bind fun _ => ?_
    split
    · exact hb.bind fun _ => ih
    · exact .pure _

namespace Stmt

theorem execAll_cons (b : Bounds) (room : Nat) (s : Stmt) (ss : List Stmt) :
    execAll b room (s :: ss) = (do
      s.exec b room
      execAll b room ss) := rfl

theorem execAll_singleton (b : Bounds) (room : Nat) (s : Stmt) :
    execAll b room [s] = s.exec b room :=
  bind_pure_unit

/-- Two lists of statements are executed one after the other. -/
theorem execAll_append (b : Bounds) (room : Nat) (ss ts : List Stmt) :
    execAll b room (ss ++ ts) = (do
      execAll b room ss
      execAll b room ts) := by
  induction ss with
  | nil => rfl
  | cons s ss ih => rw [List.cons_append, execAll_cons, execAll_cons, ih, bind_assoc]

/-- Statements in two parts run to their end if both parts do, one after the other. -/
theorem execAll_append_eq_ok {b : Bounds} {room : Nat} {ss ts : List Stmt} {m m' : Machine} :
    execAll b room (ss ++ ts) m = .ok () m' ↔
      ∃ m₁, execAll b room ss m = .ok () m₁ ∧ execAll b room ts m₁ = .ok () m' := by
  rw [execAll_append, bind_eq_ok]
  constructor
  · rintro ⟨⟨⟩, m₁, h₁, h₂⟩
    exact ⟨m₁, h₁, h₂⟩
  · rintro ⟨m₁, h₁, h₂⟩
    exact ⟨(), m₁, h₁, h₂⟩

end Stmt

end LoxScript
