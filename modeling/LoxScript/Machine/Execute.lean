import LoxScript.Machine.Evaluate
import LoxScript.Text.Lines

/-!
# Executing statements

A machine holds the scopes of a program, the line of the statement that was started last, and what
was printed. Executing a block opens a scope and closes it again however the block ends.

A loop may turn for ever. Each loop is granted a number of turns, and execution breaks off as
unfinished where a loop would go on; a run that ends does so for every number that is large enough.
-/

namespace LoxScript

/-- The state of a running program. -/
structure Machine where
  chain : Chain
  /-- The line of the statement that was started last. -/
  line : Int
  output : String
deriving DecidableEq

namespace Machine

/-- The machine before anything has run, with the given global scope. -/
def ofGlobal (s : Scope) : Machine := ⟨.ofGlobal s, 1, ""⟩

/-- The machine before anything has run. -/
def fresh : Machine := ofGlobal Scope.empty

end Machine

/-- What a run may use. -/
structure Bounds where
  /-- How deeply constructs may be nested in the source. -/
  nesting : Nat := 1000
  /-- How deeply evaluation may be nested. -/
  room : Nat := 1000
  /-- How many turns a loop may take. -/
  turns : Nat := 1000000000000
  /-- The variables whose reading exhausts the stack. -/
  trap : String → Bool := fun _ => false

/-- An execution: it works on a machine. -/
abbrev Exec := EStateM Halt Machine

namespace Exec

variable {α : Type}

/-- An evaluation in the scopes of the machine. -/
def ofEval (e : Eval α) : Exec α := fun m =>
  match e m.chain with
  | .ok a c => .ok a { m with chain := c }
  | .error h c => .error h { m with chain := c }

/-- Notes that the statement on the given line is started. -/
def start (line : Int) : Exec Unit := fun m => .ok () { m with line := line }

/-- Adds the display of a value to the output, as a line of its own. -/
def print (v : Value) : Exec Unit := fun m =>
  .ok () { m with output := m.output ++ Text.line v.display }

/-- Binds a name in the current scope. -/
def define (name : String) (v : Value) : Exec Unit := fun m =>
  .ok () { m with chain := m.chain.define name v }

/-- Executes in a scope of its own, which is closed whether or not execution breaks off. -/
def inScope (body : Exec Unit) : Exec Unit := fun m =>
  match body { m with chain := m.chain.enter } with
  | .ok _ m => .ok () { m with chain := m.chain.leave }
  | .error h m => .error h { m with chain := m.chain.leave }

/-- Executes `body` as long as `test` holds, for `turns` tests at most. -/
def repeatWhile (test : Exec Bool) (body : Exec Unit) : (turns : Nat) → Exec Unit
  | 0 => throw .unfinished
  | turns + 1 => do
    if ← test then
      body
      repeatWhile test body turns

/-- The value of an expression, in an execution. -/
def value (b : Bounds) (room : Nat) (e : Expr) : Exec Value := ofEval (e.eval b.trap room)

/-- Whether the value of an expression counts as true. -/
def holds (b : Bounds) (room : Nat) (e : Expr) : Exec Bool := do
  let v ← value b room e
  return v.truthy

end Exec

namespace Stmt

mutual

/-- Executes a statement. -/
def exec (b : Bounds) : (room : Nat) → Stmt → Exec Unit
  | 0, _ => throw .overflow
  | room + 1, expression e line => do
    Exec.start line
    let _ ← Exec.value b room e
  | room + 1, print e line => do
    Exec.start line
    let v ← Exec.value b room e
    Exec.print v
  | _ + 1, declare name none line => do
    Exec.start line
    Exec.define name.lexeme .nil
  | room + 1, declare name (some e) line => do
    Exec.start line
    let v ← Exec.value b room e
    Exec.define name.lexeme v
  | room + 1, block body line => do
    Exec.start line
    Exec.inScope (execAll b room body)
  | room + 1, ifThen c s line => do
    Exec.start line
    if ← Exec.holds b room c then s.exec b room
  | room + 1, ifElse c s t line => do
    Exec.start line
    if ← Exec.holds b room c then s.exec b room else t.exec b room
  | room + 1, loop c s line => do
    Exec.start line
    Exec.repeatWhile (Exec.holds b room c) (s.exec b room) b.turns
  | _ + 1, malformed kind line => do
    Exec.start line
    throw (.unknownStatement kind line)

/-- Executes statements in order, up to the first that breaks off. -/
def execAll (b : Bounds) : (room : Nat) → List Stmt → Exec Unit
  | _, [] => return ()
  | room, s :: ss => do
    s.exec b room
    execAll b room ss

end

end Stmt

end LoxScript
