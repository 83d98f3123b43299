import LoxScript.Proofs.Grammar.Relocation
import LoxScript.Proofs.Machine.Relabeling

/-!
# Executing a program that was moved to other lines

The lines of a program matter to its execution only where it is broken off: an error blames a token,
and a token has a line. What was printed before matters not at all. So a program that was moved to
other lines does the same on a machine with the same scopes, whatever that machine has printed
already, and if it is broken off, then by the same error on another line.
-/

namespace LoxScript

variable {g : Int → Int} {α : Type}

/-- The same reason, on another line. -/
def Halt.moved (g : Int → Int) : Halt → Halt
  | error e => .error ⟨e.token.moved g, e.cause⟩
  | unknownOperator op => .unknownOperator (op.moved g)
  | unknownStatement kind line => .unknownStatement kind (g line)
  | h => h

/-- The second machine has the same scopes as the first one, and has printed `before` in addition
to what the first one has printed. -/
structure Machine.Behind (before : String) (m m' : Machine) : Prop where
  chain : m'.chain = m.chain
  output : m'.output = before ++ m.output

/-- Two executions end in the same way, the second one on other lines. -/
inductive Exec.Agrees (g : Int → Int) (before : String) :
    EStateM.Result Halt Machine α → EStateM.Result Halt Machine α → Prop where
  | ok {a : α} {m m' : Machine} (h : m.Behind before m') : Agrees g before (.ok a m) (.ok a m')
  | error {e : Halt} {m m' : Machine} (h : m.Behind before m') :
      Agrees g before (.error e m) (.error (e.moved g) m')

/-! ## Other lines as other labels -/

theorem Scope.renamed_id (s : Scope) : s.renamed id = s := by
  simp [renamed, renameAll]

theorem Chain.renamed_id (c : Chain) : c.renamed id = c := by
  have hscope : Scope.renamed id = id := funext Scope.renamed_id
  simp [renamed, hscope]

theorem RuntimeError.relabeled_ofLines (g : Int → Int) (e : RuntimeError) :
    e.relabeled (.ofLines g) = ⟨e.token.moved g, e.cause⟩ := by
  unfold relabeled
  rw [Token.relabeled_ofLines, Token.renamed_ofLines]
  split <;> rfl

/-- A break with other lines only is one that is moved. -/
theorem Halt.relabeled_ofLines (g : Int → Int) (h : Halt) :
    h.relabeled (.ofLines g) = h.moved g := by
  cases h with
  | error e => exact congrArg error (e.relabeled_ofLines g)
  | unknownOperator op => simp only [relabeled, moved, Token.relabeled_ofLines]
  | _ => rfl

/-- The same bounds suit a moved program. -/
theorem Bounds.relabeled_ofLines (g : Int → Int) (b : Bounds) :
    b.Relabeled (.ofLines g) b :=
  ⟨rfl, rfl, rfl, fun _ => rfl⟩

theorem Machine.relabeled_ofLines {before : String} {m m' : Machine} :
    m.Relabeled (.ofLines g) (fun _ _ => True) before m' ↔ m.Behind before m' := by
  constructor
  · intro h
    exact ⟨h.chain.trans m.chain.renamed_id, h.output⟩
  · intro h
    exact ⟨h.chain.trans m.chain.renamed_id.symm, trivial, h.output⟩

/-- Executions that differ in lines agree but for the lines. -/
theorem Exec.Agrees.of_translated {before : String} {r r' : EStateM.Result Halt Machine α}
    (h : Translated (Machine.Relabeled (.ofLines g) (fun _ _ => True) before)
      (Halt.relabeled (.ofLines g)) id r r') : Agrees g before r r' := by
  cases h with
  | ok hm => exact .ok (Machine.relabeled_ofLines.mp hm)
  | @error e m m' hm =>
    rw [Halt.relabeled_ofLines]
    exact .error (Machine.relabeled_ofLines.mp hm)

/-- Moved statements do the same, or are broken off on another line. -/
theorem Stmt.execAll_moved {before : String} (b : Bounds) (room : Nat) (ss : List Stmt)
    {m m' : Machine} (hm : m.Behind before m') :
    Exec.Agrees g before (execAll b room ss m) (execAll b room (movedAll g ss) m') := by
  have hexec : Exec.Relabels (.ofLines g) (fun _ _ => True) before (execAll b room ss)
      (execAll b room (relabeledAll (.ofLines g) ss)) :=
    execAll_relabeled Function.injective_id (fun _ => trivial) (b.relabeled_ofLines g) room ss
  rw [relabeledAll_ofLines] at hexec
  exact .of_translated (hexec m m' (Machine.relabeled_ofLines.mpr hm))

end LoxScript
