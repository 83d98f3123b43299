import LoxScript.Proofs.Machine.Sequence
import LoxScript.Proofs.Scoping.Tree

/-!
# Execution in a tree of scopes

A chain of scopes does not tell whether the scope that a statement ends in is the very scope in which it
began, or another one with the same bindings. A tree does: its scopes are never removed, and have numbers.
`Stmt.execTree` executes a statement in a tree. A block is executed in a new scope within the current
one; whether or not it breaks off, the scope that was current before is current again behind it.

Both executions do the same (`simulates_exec`). In the tree it can be read off that execution ends in
the scope in which it began, and that the way out from this scope remains the same (`within_exec`).
-/

namespace LoxScript

/-- A tree of scopes, and the number of the scope that execution is in. -/
structure Site where
  forest : Forest
  current : Nat

namespace Site

/-- The scopes from the current one outwards are those of the chain. -/
def Shows (s : Site) (c : Chain) : Prop := s.forest.Shows s.current c.scopes

/-- The site in a new scope within the current one. -/
def enter (s : Site) : Site := ⟨s.forest.child s.current, s.forest.nodes.length⟩

/-- The current scope is the same in both sites, and no scope was removed or moved. -/
def Within (s s' : Site) : Prop := s'.current = s.current ∧ s.forest.Grows s'.forest

instance : IsPreorder Site Within where
  refl s := ⟨rfl, refl_of Forest.Grows s.forest⟩
  trans _ _ _ h₁ h₂ := ⟨h₂.1.trans h₁.1, trans_of Forest.Grows h₁.2 h₂.2⟩

end Site

/-- A machine whose scopes lie in a tree. -/
structure TreeMachine where
  site : Site
  /-- The line of the statement that was started last. -/
  line : Int
  output : String

/-- The machine shows the other one: the same scopes from the current one outwards, and all else the
same. -/
structure TreeMachine.Shows (m : Machine) (t : TreeMachine) : Prop where
  site : t.site.Shows m.chain
  line : t.line = m.line
  output : t.output = m.output

/-- An evaluation in a tree of scopes. -/
abbrev TreeEval := EStateM Halt Site

/-- An execution in a tree of scopes. -/
abbrev TreeExec := EStateM Halt TreeMachine

/-! ## Evaluation -/

namespace TreeEval

variable {α : Type}

/-- An outcome that does not depend on scopes. -/
def ofExcept : Except Halt α → TreeEval α
  | .ok a => pure a
  | .error h => throw h

/-- The value of a variable, which is looked for from the current scope outwards. -/
def read (trap : String → Bool) (name : Token) : TreeEval Value := fun s =>
  if trap name.lexeme then .error .overflow s
  else
    match s.forest.find? s.current name.lexeme with
    | some v => .ok v s
    | none => .error (.error ⟨name, .undefinedVariable⟩) s

/-- Gives a variable another value. -/
def assign (name : Token) (v : Value) : TreeEval Unit := fun s =>
  match s.forest.assign? s.current name.lexeme v with
  | some f => .ok () { s with forest := f }
  | none => .error (.error ⟨name, .undefinedVariable⟩) s

end TreeEval

/-- Evaluates an expression in a tree of scopes. -/
def Expr.evalTree (trap : String → Bool) : (room : Nat) → Expr → TreeEval Value
  | 0, _ => throw .overflow
  | _ + 1, literal v _ => return v
  | room + 1, grouping e _ => e.evalTree trap room
  | _ + 1, read name _ => TreeEval.read trap name
  | room + 1, assign name e _ => do
    let v ← e.evalTree trap room
    TreeEval.assign name v
    return v
  | room + 1, logical l op r _ => do
    let v ← l.evalTree trap room
    if v.truthy = (op.kind == .orWord) then return v
    else r.evalTree trap room
  | room + 1, unary op e _ => do
    let v ← e.evalTree trap room
    TreeEval.ofExcept (v.unary op)
  | room + 1, binary l op r _ => do
    let v ← l.evalTree trap room
    let w ← r.evalTree trap room
    TreeEval.ofExcept (Value.binary op v w)
  | _ + 1, malformed _ _ => throw .invalidExpression

theorem evalTree_zero (trap : String → Bool) (e : Expr) :
    e.evalTree trap 0 = throw .overflow := by
  cases e <;> rfl

/-- Reading a variable changes nothing in the tree. -/
theorem within_read (trap : String → Bool) (name : Token) :
    Frames Site.Within (TreeEval.read trap name) := by
  intro s
  unfold TreeEval.read
  split
  · exact refl_of Site.Within s
  · split <;> exact refl_of Site.Within s

/-- An assignment writes to a scope of the tree and adds none. -/
theorem within_assign (name : Token) (v : Value) :
    Frames Site.Within (TreeEval.assign name v) := by
  intro s
  unfold TreeEval.assign
  split
  · next f hf =>
    obtain ⟨j, -, rfl⟩ := Option.map_eq_some_iff.mp hf
    exact ⟨rfl, Forest.grows_define s.forest j name.lexeme v⟩
  · exact refl_of Site.Within s

theorem within_ofExcept {α : Type} (r : Except Halt α) :
    Frames Site.Within (TreeEval.ofExcept r) := by
  cases r with
  | ok a => exact .pure a
  | error h => exact .throw h

/-- Evaluation stays in the current scope. -/
theorem within_eval (trap : String → Bool) (room : Nat) (e : Expr) :
    Frames Site.Within (e.evalTree trap room) := by
  induction room generalizing e with
  | zero =>
    rw [evalTree_zero]
    exact .throw _
  | succ room ih =>
    cases e with
    | literal v _ => exact .pure v
    | grouping e _ => exact ih e
    | read name _ => exact within_read trap name
    | assign name e _ =>
      exact (ih e).bind fun v => (within_assign name v).bind fun _ => .pure v
    | logical l op r _ =>
      refine (ih l).bind fun v => ?_
      split
      · exact .pure v
      · exact ih r
    | unary op e _ => exact (ih e).bind fun v => within_ofExcept _
    | binary l op r _ => exact (ih l).bind fun v => (ih r).bind fun w => within_ofExcept _
    | malformed _ _ => exact .throw _

/-- The site on the right shows the chain on the left. -/
def ShownBy (c : Chain) (s : Site) : Prop := s.Shows c

/-- A variable is found in the tree as in the chain. -/
theorem simulates_read (trap : String → Bool) (name : Token) :
    Simulates ShownBy (Eval.read trap name) (TreeEval.read trap name) := by
  intro c s h
  have hfind : s.forest.find? s.current name.lexeme = c.find? name.lexeme :=
    Forest.Shows.find?_eq h name.lexeme
  unfold Eval.read TreeEval.read
  rw [hfind]
  split
  · exact .error h
  · cases c.find? name.lexeme with
    | some v => exact .ok h
    | none => exact .error h

/-- An assignment reaches the scope that it reaches in the chain. -/
theorem simulates_assign (name : Token) (v : Value) :
    Simulates ShownBy (Eval.assign name v) (TreeEval.assign name v) := by
  intro c s h
  have hscopes := c.scopes_assign? name.lexeme v
  unfold Eval.assign TreeEval.assign Forest.assign?
  rcases Forest.Shows.assign_cases h name.lexeme with ⟨hnone, hassign⟩ | ⟨j, -, hsome, hassign⟩
  · rw [hassign v, Option.map_eq_none_iff] at hscopes
    rw [hscopes, hnone]
    exact .error h
  · obtain ⟨ss, hss, hshows⟩ := hassign v
    rw [hss] at hscopes
    obtain ⟨c', hc', rfl⟩ := Option.map_eq_some_iff.mp hscopes
    rw [hc', hsome]
    exact .ok hshows

theorem simulates_ofExcept {α : Type} (r : Except Halt α) :
    Simulates ShownBy (Eval.ofExcept r) (TreeEval.ofExcept r) := by
  cases r with
  | ok a => exact .pure a
  | error h => exact .throw h

/-- Evaluation in the tree and in the chain have the same outcome. -/
theorem simulates_eval (trap : String → Bool) (room : Nat) (e : Expr) :
    Simulates ShownBy (e.eval trap room) (e.evalTree trap room) := by
  induction room generalizing e with
  | zero =>
    rw [eval_zero, evalTree_zero]
    exact .throw _
  | succ room ih =>
    cases e with
    | literal v _ => exact .pure v
    | grouping e _ => exact ih e
    | read name _ => exact simulates_read trap name
    | assign name e _ =>
      exact (ih e).bind fun v => (simulates_assign name v).bind fun _ => .pure v
    | logical l op r _ =>
      refine (ih l).bind fun v => ?_
      split
      · exact .pure v
      · exact ih r
    | unary op e _ => exact (ih e).bind fun v => simulates_ofExcept _
    | binary l op r _ => exact (ih l).bind fun v => (ih r).bind fun w => simulates_ofExcept _
    | malformed _ _ => exact .throw _

/-! ## Execution -/

namespace TreeExec

variable {α : Type}

/-- An evaluation as a part of an execution. -/
def ofEval (e : TreeEval α) : TreeExec α := fun t =>
  match e t.site with
  | .ok a s => .ok a { t with site := s }
  | .error h s => .error h { t with site := s }

/-- Notes the line of the statement that starts. -/
def start (line : Int) : TreeExec Unit := fun t => .ok () { t with line := line }

/-- Adds the display of a value to the output, as a line of its own. -/
def print (v : Value) : TreeExec Unit := fun t =>
  .ok () { t with output := t.output ++ Text.line v.display }

/-- Binds a name in the current scope. -/
def define (name : String) (v : Value) : TreeExec Unit := fun t =>
  .ok () { t with site.forest := t.site.forest.define t.site.current name v }

/-- Executes in a new scope within the current one. Whether or not execution breaks off, the scope
that was current before is current again. -/
def inScope (body : TreeExec Unit) : TreeExec Unit := fun t =>
  match body { t with site := t.site.enter } with
  | .ok _ t' => .ok () { t' with site.current := t.site.current }
  | .error h t' => .error h { t' with site.current := t.site.current }

/-- Repeats a body while a test holds, `turns` times at most. -/
def repeatWhile (test : TreeExec Bool) (body : TreeExec Unit) : (turns : Nat) → TreeExec Unit
  | 0 => throw .unfinished
  | turns + 1 => do
    if ← test then
      body
      repeatWhile test body turns

/-- The value of an expression, in an execution. -/
def value (b : Bounds) (room : Nat) (e : Expr) : TreeExec Value := ofEval (e.evalTree b.trap room)

/-- Whether the value of an expression counts as true. -/
def holds (b : Bounds) (room : Nat) (e : Expr) : TreeExec Bool := do
  let v ← value b room e
  return v.truthy

end TreeExec

namespace Stmt

mutual

/-- Executes a statement in a tree of scopes. -/
def execTree (b : Bounds) : (room : Nat) → Stmt → TreeExec Unit
  | 0, _ => throw .overflow
  | room + 1, expression e line => do
    TreeExec.start line
    let _ ← TreeExec.value b room e
  | room + 1, print e line => do
    TreeExec.start line
    let v ← TreeExec.value b room e
    TreeExec.print v
  | _ + 1, declare name none line => do
    TreeExec.start line
    TreeExec.define name.lexeme .nil
  | room + 1, declare name (some e) line => do
    TreeExec.start line
    let v ← TreeExec.value b room e
    TreeExec.define name.lexeme v
  | room + 1, block body line => do
    TreeExec.start line
    TreeExec.inScope (execTreeAll b room body)
  | room + 1, ifThen c s line => do
    TreeExec.start line
    if ← TreeExec.holds b room c then s.execTree b room
  | room + 1, ifElse c s t line => do
    TreeExec.start line
    if ← TreeExec.holds b room c then s.execTree b room else t.execTree b room
  | room + 1, loop c s line => do
    TreeExec.start line
    TreeExec.repeatWhile (TreeExec.holds b room c) (s.execTree b room) b.turns
  | _ + 1, malformed kind line => do
    TreeExec.start line
    throw (.unknownStatement kind line)

/-- Executes statements in a tree of scopes. -/
def execTreeAll (b : Bounds) : (room : Nat) → List Stmt → TreeExec Unit
  | _, [] => return ()
  | room, s :: ss => do
    s.execTree b room
    execTreeAll b room ss

end

end Stmt

theorem execTree_zero (b : Bounds) (s : Stmt) : s.execTree b 0 = throw .overflow := by
  cases s <;> rfl

/-! ## The current scope -/

/-- The current scope is the same in both machines, and no scope was removed or moved. -/
def TreeMachine.Within (t t' : TreeMachine) : Prop := t.site.Within t'.site

instance : IsPreorder TreeMachine TreeMachine.Within where
  refl t := refl_of Site.Within t.site
  trans _ _ _ h₁ h₂ := trans_of Site.Within h₁ h₂

open TreeMachine (Within)

theorem within_start (line : Int) : Frames Within (TreeExec.start line) :=
  fun t => refl_of Site.Within t.site

theorem within_print (v : Value) : Frames Within (TreeExec.print v) :=
  fun t => refl_of Site.Within t.site

/-- A definition adds no scope, and leaves the current one where it is. -/
theorem within_define (name : String) (v : Value) : Frames Within (TreeExec.define name v) :=
  fun t => ⟨rfl, Forest.grows_define t.site.forest t.site.current name v⟩

theorem within_value (b : Bounds) (room : Nat) (e : Expr) :
    Frames Within (TreeExec.value b room e) := by
  intro t
  have h := within_eval b.trap room e t.site
  unfold TreeExec.value TreeExec.ofEval
  cases he : e.evalTree b.trap room t.site with
  | ok v s =>
    rw [he] at h
    exact h
  | error halt s =>
    rw [he] at h
    exact h

theorem within_holds (b : Bounds) (room : Nat) (e : Expr) :
    Frames Within (TreeExec.holds b room e) :=
  (within_value b room e).bind fun v => .pure v.truthy

/-- Behind a block the scope is current in which the block began, however the block ended. -/
theorem within_inScope {body : TreeExec Unit} (hb : Frames Within body) :
    Frames Within (TreeExec.inScope body) := by
  intro t
  have hbody := hb { t with site := t.site.enter }
  have hgrows : ∀ t' : TreeMachine, Within { t with site := t.site.enter } t' →
      t.site.forest.Grows t'.site.forest :=
    fun t' h => trans_of Forest.Grows (Forest.grows_child t.site.forest t.site.current) h.2
  unfold TreeExec.inScope
  cases h : body { t with site := t.site.enter } with
  | ok u t' =>
    rw [h] at hbody
    exact ⟨rfl, hgrows t' hbody⟩
  | error halt t' =>
    rw [h] at hbody
    exact ⟨rfl, hgrows t' hbody⟩

/-- A loop keeps the tree growing if its test and body do. -/
theorem within_repeatWhile {test : TreeExec Bool} {body : TreeExec Unit} (ht : Frames Within test)
    (hb : Frames Within body) (turns : Nat) :
    Frames Within (TreeExec.repeatWhile test body turns) := by
  induction turns with
  | zero => exact .throw _
  | succ turns ih =>
    refine ht.bind fun _ => ?_
    split
    · exact hb.bind fun _ => ih
    · exact .pure _

mutual

/-- A statement ends in the scope in which it began, however it ends. -/
theorem within_exec (b : Bounds) (room : Nat) (s : Stmt) : Frames Within (s.execTree b room) := by
  cases room with
  | zero =>
    rw [execTree_zero]
    exact .throw _
  | succ room =>
    cases s with
    | expression e line =>
      exact (within_start line).bind fun _ => (within_value b room e).bind fun _ => .pure _
    | print e line =>
      exact (within_start line).bind fun _ => (within_value b room e).bind fun v => within_print v
    | declare name first line =>
      cases first with
      | none => exact (within_start line).bind fun _ => within_define _ _
      | some e =>
        exact (within_start line).bind fun _ =>
          (within_value b room e).bind fun v => within_define _ v
    | block body line =>
      exact (within_start line).bind fun _ => within_inScope (within_execAll b room body)
    | ifThen c s line =>
      refine (within_start line).bind fun _ => (within_holds b room c).bind fun _ => ?_
      split
      · exact within_exec b room s
      · exact .pure _
    | ifElse c s t line =>
      refine (within_start line).bind fun _ => (within_holds b room c).bind fun _ => ?_
      split
      · exact within_exec b room s
      · exact within_exec b room t
    | loop c s line =>
      exact (within_start line).bind fun _ =>
        within_repeatWhile (within_holds b room c) (within_exec b room s) b.turns
    | malformed kind line => exact (within_start line).bind fun _ => .throw _

/-- Statements in a row keep the tree growing. -/
theorem within_execAll (b : Bounds) (room : Nat) (ss : List Stmt) :
    Frames Within (Stmt.execTreeAll b room ss) := by
  cases ss with
  | nil => exact .pure _
  | cons s ss => exact (within_exec b room s).bind fun _ => within_execAll b room ss

end

/-! ## Both executions do the same -/

open TreeMachine (Shows)

theorem simulates_start (line : Int) : Simulates Shows (Exec.start line) (TreeExec.start line) :=
  fun _ _ h => .ok ⟨h.site, rfl, h.output⟩

theorem simulates_print (v : Value) : Simulates Shows (Exec.print v) (TreeExec.print v) := by
  intro m t h
  refine .ok ⟨h.site, h.line, ?_⟩
  show t.output ++ Text.line v.display = m.output ++ Text.line v.display
  rw [h.output]

/-- A definition is made in the innermost scope of both. -/
theorem simulates_define (name : String) (v : Value) :
    Simulates Shows (Exec.define name v) (TreeExec.define name v) := by
  intro m t h
  refine .ok ⟨?_, h.line, h.output⟩
  obtain ⟨s, ss, hscopes⟩ := List.exists_cons_of_ne_nil m.chain.scopes_ne_nil
  have hsite : t.site.forest.Shows t.site.current m.chain.scopes := h.site
  rw [hscopes] at hsite
  show (t.site.forest.define t.site.current name v).Shows t.site.current
    (m.chain.define name v).scopes
  rw [Chain.scopes_define hscopes]
  exact hsite.define name v

/-- Evaluation within an execution simulates as it does by itself. -/
theorem simulates_value (b : Bounds) (room : Nat) (e : Expr) :
    Simulates Shows (Exec.value b room e) (TreeExec.value b room e) := by
  intro m t h
  have heval := simulates_eval b.trap room e m.chain t.site h.site
  unfold Exec.value Exec.ofEval TreeExec.value TreeExec.ofEval
  generalize e.eval b.trap room m.chain = r at heval
  generalize e.evalTree b.trap room t.site = r' at heval
  cases heval with
  | ok hsite => exact .ok ⟨hsite, h.line, h.output⟩
  | error hsite => exact .error ⟨hsite, h.line, h.output⟩

theorem simulates_holds (b : Bounds) (room : Nat) (e : Expr) :
    Simulates Shows (Exec.holds b room e) (TreeExec.holds b room e) :=
  (simulates_value b room e).bind fun v => .pure v.truthy

/-- Going back to the scope that was current before closes the innermost scope of the chain. -/
theorem Site.Shows.leave {s s' : Site} {c : Chain} (h : s'.Shows c) (hw : s.enter.Within s') :
    Site.Shows { s' with current := s.current } c.leave := by
  obtain ⟨hcurrent, hgrows⟩ := hw
  have hnode : s.enter.forest.nodes[s.enter.current]? = some ⟨some s.current, Scope.empty⟩ := by
    simp [Site.enter, Forest.child]
  obtain ⟨node, hnode', hparent⟩ := hgrows _ _ hnode
  rw [← hcurrent] at hnode'
  obtain ⟨sc, ss, hscopes, hshows⟩ := Forest.Shows.outwards h hnode' hparent
  show s'.forest.Shows s.current c.leave.scopes
  rw [Chain.scopes_leave hscopes hshows.ne_nil]
  exact hshows

/-- A scope of its own is a new one in the tree, and is left by going back to the one around it. -/
theorem simulates_inScope {body : Exec Unit} {body' : TreeExec Unit}
    (hb : Simulates Shows body body') (hw : Frames Within body') :
    Simulates Shows (Exec.inScope body) (TreeExec.inScope body') := by
  intro m t h
  have henter : Shows { m with chain := m.chain.enter } { t with site := t.site.enter } :=
    ⟨Forest.Shows.child h.site, h.line, h.output⟩
  have hbody := hb _ _ henter
  have hwithin := hw { t with site := t.site.enter }
  unfold Exec.inScope TreeExec.inScope
  generalize body { m with chain := m.chain.enter } = r at hbody
  generalize body' { t with site := t.site.enter } = r' at hbody hwithin
  cases hbody with
  | ok h' => exact .ok ⟨h'.site.leave hwithin, h'.line, h'.output⟩
  | error h' => exact .error ⟨h'.site.leave hwithin, h'.line, h'.output⟩

/-- Loops are simulated turn by turn. -/
theorem simulates_repeatWhile {test : Exec Bool} {test' : TreeExec Bool} {body : Exec Unit}
    {body' : TreeExec Unit} (ht : Simulates Shows test test') (hb : Simulates Shows body body')
    (turns : Nat) :
    Simulates Shows (Exec.repeatWhile test body turns) (TreeExec.repeatWhile test' body' turns) := by
  induction turns with
  | zero => exact .throw _
  | succ turns ih =>
    refine ht.bind fun goes => ?_
    split
    · exact hb.bind fun _ => ih
    · exact .pure _

mutual

/-- A statement does the same in the tree and in the chain. -/
theorem simulates_exec (b : Bounds) (room : Nat) (s : Stmt) :
    Simulates Shows (s.exec b room) (s.execTree b room) := by
  cases room with
  | zero =>
    rw [exec_zero, execTree_zero]
    exact .throw _
  | succ room =>
    cases s with
    | expression e line =>
      exact (simulates_start line).bind fun _ => (simulates_value b room e).bind fun _ => .pure _
    | print e line =>
      exact (simulates_start line).bind fun _ =>
        (simulates_value b room e).bind fun v => simulates_print v
    | declare name first line =>
      cases first with
      | none => exact (simulates_start line).bind fun _ => simulates_define _ _
      | some e =>
        exact (simulates_start line).bind fun _ =>
          (simulates_value b room e).bind fun v => simulates_define _ v
    | block body line =>
      exact (simulates_start line).bind fun _ =>
        simulates_inScope (simulates_execAll b room body) (within_execAll b room body)
    | ifThen c s line =>
      refine (simulates_start line).bind fun _ => (simulates_holds b room c).bind fun _ => ?_
      split
      · exact simulates_exec b room s
      · exact .pure _
    | ifElse c s t line =>
      refine (simulates_start line).bind fun _ => (simulates_holds b room c).bind fun _ => ?_
      split
      · exact simulates_exec b room s
      · exact simulates_exec b room t
    | loop c s line =>
      exact (simulates_start line).bind fun _ =>
        simulates_repeatWhile (simulates_holds b room c) (simulates_exec b room s) b.turns
    | malformed kind line => exact (simulates_start line).bind fun _ => .throw _

/-- Statements in a row are simulated one after another. -/
theorem simulates_execAll (b : Bounds) (room : Nat) (ss : List Stmt) :
    Simulates Shows (Stmt.execAll b room ss) (Stmt.execTreeAll b room ss) := by
  cases ss with
  | nil => exact .pure _
  | cons s ss => exact (simulates_exec b room s).bind fun _ => simulates_execAll b room ss

end

end LoxScript
