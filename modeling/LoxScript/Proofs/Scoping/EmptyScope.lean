import LoxScript.Proofs.Grammar.Placement
import LoxScript.Proofs.Machine.Sequence

/-!
# An empty scope makes no difference

A scope that binds nothing is passed by every search and by every assignment. Only a declaration that
takes place in it would make a difference, and a statement that is no declaration takes place in the
scopes of its own blocks. So such a statement does the same whether or not it is executed in one more
scope, and the additional scope is still empty behind it (`transparent_exec`).

While the statement is executed, the additional scope lies around the scopes that were opened since. The
invariant counts these scopes, because a declaration takes place only where there is at least one.
-/

namespace LoxScript

/-- The second list has an empty scope in addition, behind the first `k` scopes. -/
inductive Scope.Padded : (k : Nat) → List Scope → List Scope → Prop where
  | here (ss : List Scope) : Padded 0 ss (Scope.empty :: ss)
  | around {k : Nat} (s : Scope) {ss ss' : List Scope} (h : Padded k ss ss') :
      Padded (k + 1) (s :: ss) (s :: ss')

namespace Scope.Padded

/-- An assignment passes the scope that binds nothing. -/
theorem assignIn {k : Nat} {ss ss' : List Scope} (h : Padded k ss ss') (x : String)
    (v : Value) :
    Option.Rel (Padded k) (Chain.assignIn x v ss) (Chain.assignIn x v ss') := by
  induction h with
  | here ss =>
    have hempty : Scope.empty.binds x = false := rfl
    rw [Chain.assignIn, hempty]
    cases Chain.assignIn x v ss with
    | none => exact .none
    | some ts => exact .some (.here ts)
  | @around k s ss ss' h ih =>
    rw [Chain.assignIn, Chain.assignIn]
    split
    · exact .some (.around _ h)
    · generalize Chain.assignIn x v ss = o at ih
      generalize Chain.assignIn x v ss' = o' at ih
      cases ih with
      | none => exact .none
      | some hts => exact .some (.around s hts)

theorem findSome? {k : Nat} {ss ss' : List Scope} (h : Padded k ss ss') (x : String) :
    ss'.findSome? (·.find? x) = ss.findSome? (·.find? x) := by
  induction h with
  | here ss => rfl
  | around s h ih => rw [List.findSome?_cons, List.findSome?_cons, ih]

end Scope.Padded

/-! ## Chains -/

/-- The second chain has an empty scope in addition, around its `k` innermost scopes. -/
structure Chain.Padded (k : Nat) (c c' : Chain) : Prop where
  inner : Scope.Padded k c.inner c'.inner
  global : c'.global = c.global

namespace Chain

variable {k : Nat} {c c' : Chain}

/-- Without scopes in front of it, the additional scope is the innermost one. -/
theorem padded_zero : c.Padded 0 c' ↔ c' = c.enter := by
  constructor
  · rintro ⟨hinner, hglobal⟩
    obtain ⟨inner, global⟩ := c
    obtain ⟨inner', global'⟩ := c'
    cases hinner
    cases hglobal
    rfl
  · rintro rfl
    exact ⟨.here c.inner, rfl⟩

namespace Padded

theorem find? (h : c.Padded k c') (x : String) : c'.find? x = c.find? x := by
  unfold Chain.find? scopes
  rw [List.findSome?_append, List.findSome?_append, h.inner.findSome? x, h.global]

theorem assign? (h : c.Padded k c') (x : String) (v : Value) :
    Option.Rel (Chain.Padded k) (c.assign? x v) (c'.assign? x v) := by
  have hinner := h.inner.assignIn x v
  unfold Chain.assign?
  generalize assignIn x v c.inner = o at hinner
  generalize assignIn x v c'.inner = o' at hinner
  cases hinner with
  | some hss => exact .some ⟨hss, h.global⟩
  | none =>
    rw [h.global]
    dsimp only
    split
    · exact .some ⟨h.inner, rfl⟩
    · exact .none

/-- A scope that is opened lies in front of the additional one. -/
theorem enter (h : c.Padded k c') : c.enter.Padded (k + 1) c'.enter :=
  ⟨.around Scope.empty h.inner, h.global⟩

theorem leave (h : c.Padded (k + 1) c') : c.leave.Padded k c'.leave := by
  obtain ⟨inner, global⟩ := c
  obtain ⟨inner', global'⟩ := c'
  obtain ⟨hinner, hglobal⟩ := h
  cases hinner with
  | around s hss => exact ⟨hss, hglobal⟩

/-- A declaration within the additional scope takes place in a scope that both chains have. -/
theorem define (h : c.Padded (k + 1) c') (x : String) (v : Value) :
    (c.define x v).Padded (k + 1) (c'.define x v) := by
  obtain ⟨inner, global⟩ := c
  obtain ⟨inner', global'⟩ := c'
  obtain ⟨hinner, hglobal⟩ := h
  cases hinner with
  | around s hss => exact ⟨.around (s.define x v) hss, hglobal⟩

end Padded

end Chain

/-! ## Evaluation -/

section

variable {k : Nat}

/-- A variable is read alike with the additional scope and without it. -/
theorem padded_read (trap : String → Bool) (name : Token) :
    Simulates (Chain.Padded k) (Eval.read trap name) (Eval.read trap name) := by
  intro c c' h
  unfold Eval.read
  rw [h.find? name.lexeme]
  split
  · exact .error h
  · cases c.find? name.lexeme with
    | some v => exact .ok h
    | none => exact .error h

/-- An assignment is made alike. -/
theorem padded_assign (name : Token) (v : Value) :
    Simulates (Chain.Padded k) (Eval.assign name v) (Eval.assign name v) := by
  intro c c' h
  have hassign := h.assign? name.lexeme v
  unfold Eval.assign
  generalize c.assign? name.lexeme v = o at hassign
  generalize c'.assign? name.lexeme v = o' at hassign
  cases hassign with
  | some hc => exact .ok hc
  | none => exact .error h

theorem padded_ofExcept {α : Type} (r : Except Halt α) :
    Simulates (Chain.Padded k) (Eval.ofExcept r) (Eval.ofExcept r) := by
  cases r with
  | ok a => exact .pure a
  | error h => exact .throw h

theorem padded_eval (trap : String → Bool) (room : Nat) (e : Expr) :
    Simulates (Chain.Padded k) (e.eval trap room) (e.eval trap room) := by
  induction room generalizing e with
  | zero =>
    rw [eval_zero]
    exact .throw _
  | succ room ih =>
    cases e with
    | literal v _ => exact .pure v
    | grouping e _ => exact ih e
    | read name _ => exact padded_read trap name
    | assign name e _ => exact (ih e).bind fun v => (padded_assign name v).bind fun _ => .pure v
    | logical l op r _ =>
      refine (ih l).bind fun v => ?_
      split
      · exact .pure v
      · exact ih r
    | unary op e _ => exact (ih e).bind fun v => padded_ofExcept _
    | binary l op r _ => exact (ih l).bind fun v => (ih r).bind fun w => padded_ofExcept _
    | malformed _ _ => exact .throw _

end

/-! ## Execution -/

/-- The second machine has an empty scope in addition, and nothing else. -/
structure Machine.Padded (k : Nat) (m m' : Machine) : Prop where
  chain : m.chain.Padded k m'.chain
  line : m'.line = m.line
  output : m'.output = m.output

section

open Machine (Padded)

variable {k : Nat}

theorem padded_start (line : Int) : Simulates (Padded k) (Exec.start line) (Exec.start line) :=
  fun _ _ h => .ok ⟨h.chain, rfl, h.output⟩

theorem padded_print (v : Value) : Simulates (Padded k) (Exec.print v) (Exec.print v) := by
  intro m m' h
  refine .ok ⟨h.chain, h.line, ?_⟩
  show m'.output ++ Text.line v.display = m.output ++ Text.line v.display
  rw [h.output]

/-- A definition is made in a scope in front of the additional one. -/
theorem padded_define (x : String) (v : Value) :
    Simulates (Padded (k + 1)) (Exec.define x v) (Exec.define x v) :=
  fun _ _ h => .ok ⟨h.chain.define x v, h.line, h.output⟩

theorem padded_value (b : Bounds) (room : Nat) (e : Expr) :
    Simulates (Padded k) (Exec.value b room e) (Exec.value b room e) := by
  intro m m' h
  have heval := padded_eval b.trap room e m.chain m'.chain h.chain
  unfold Exec.value Exec.ofEval
  generalize e.eval b.trap room m.chain = r at heval
  generalize e.eval b.trap room m'.chain = r' at heval
  cases heval with
  | ok hc => exact .ok ⟨hc, h.line, h.output⟩
  | error hc => exact .error ⟨hc, h.line, h.output⟩

theorem padded_holds (b : Bounds) (room : Nat) (e : Expr) :
    Simulates (Padded k) (Exec.holds b room e) (Exec.holds b room e) :=
  (padded_value b room e).bind fun v => .pure v.truthy

/-- Within a scope of its own, there is one more scope in front. -/
theorem padded_inScope {body : Exec Unit} (hb : Simulates (Padded (k + 1)) body body) :
    Simulates (Padded k) (Exec.inScope body) (Exec.inScope body) := by
  intro m m' h
  have hbody := hb { m with chain := m.chain.enter } { m' with chain := m'.chain.enter }
    ⟨h.chain.enter, h.line, h.output⟩
  unfold Exec.inScope
  generalize body { m with chain := m.chain.enter } = r at hbody
  generalize body { m' with chain := m'.chain.enter } = r' at hbody
  cases hbody with
  | ok h' => exact .ok ⟨h'.chain.leave, h'.line, h'.output⟩
  | error h' => exact .error ⟨h'.chain.leave, h'.line, h'.output⟩

/-- A loop takes the same turns. -/
theorem padded_repeatWhile {test : Exec Bool} {body : Exec Unit}
    (ht : Simulates (Padded k) test test) (hb : Simulates (Padded k) body body) (turns : Nat) :
    Simulates (Padded k) (Exec.repeatWhile test body turns) (Exec.repeatWhile test body turns) := by
  induction turns with
  | zero => exact .throw _
  | succ turns ih =>
    refine ht.bind fun goes => ?_
    split
    · exact hb.bind fun _ => ih
    · exact .pure _

mutual

/-- A statement does not notice the additional scope, if it is no declaration or there are other
scopes within the additional one. -/
theorem padded_exec (b : Bounds) (room : Nat) (s : Stmt) (hs : s.Placed) (k : Nat)
    (hk : s.declares = false ∨ k ≠ 0) :
    Simulates (Padded k) (s.exec b room) (s.exec b room) := by
  cases room with
  | zero =>
    rw [exec_zero]
    exact .throw _
  | succ room =>
    cases s with
    | expression e line =>
      exact (padded_start line).bind fun _ => (padded_value b room e).bind fun _ => .pure _
    | print e line =>
      exact (padded_start line).bind fun _ => (padded_value b room e).bind fun v => padded_print v
    | declare name first line =>
      have hk : k ≠ 0 := by simpa [Stmt.declares] using hk
      -- a declaration needs a scope in front of the additional one
      obtain ⟨k, rfl⟩ := Nat.exists_eq_succ_of_ne_zero hk
      cases first with
      | none => exact (padded_start line).bind fun _ => padded_define _ _
      | some e =>
        exact (padded_start line).bind fun _ =>
          (padded_value b room e).bind fun v => padded_define _ v
    | block body line =>
      exact (padded_start line).bind fun _ => padded_inScope (padded_execAll b room body hs k)
    | ifThen c s line =>
      refine (padded_start line).bind fun _ => (padded_holds b room c).bind fun _ => ?_
      split
      · exact padded_exec b room s hs.2 k (.inl hs.1)
      · exact .pure _
    | ifElse c s t line =>
      refine (padded_start line).bind fun _ => (padded_holds b room c).bind fun _ => ?_
      split
      · exact padded_exec b room s hs.1.2 k (.inl hs.1.1)
      · exact padded_exec b room t hs.2.2 k (.inl hs.2.1)
    | loop c s line =>
      exact (padded_start line).bind fun _ =>
        padded_repeatWhile (padded_holds b room c) (padded_exec b room s hs.2 k (.inl hs.1)) b.turns
    | malformed kind line => exact (padded_start line).bind fun _ => .throw _

/-- Statements in a row do the same if there is a scope for their definitions. -/
theorem padded_execAll (b : Bounds) (room : Nat) (ss : List Stmt) (hss : Stmt.PlacedAll ss)
    (k : Nat) :
    Simulates (Padded (k + 1)) (Stmt.execAll b room ss) (Stmt.execAll b room ss) := by
  cases ss with
  | nil => exact .pure _
  | cons s ss =>
    exact (padded_exec b room s hss.1 (k + 1) (.inr (Nat.succ_ne_zero k))).bind fun _ =>
      padded_execAll b room ss hss.2 k

end

end

/-! ## One more scope -/

/-- The machine in one more scope. -/
def Machine.enter (m : Machine) : Machine := { m with chain := m.chain.enter }

/-- A machine has the additional scope innermost if it has just entered it. -/
theorem Machine.padded_zero {m m' : Machine} : m.Padded 0 m' ↔ m' = m.enter := by
  obtain ⟨chain', line', output'⟩ := m'
  constructor
  · rintro ⟨hchain, hline, houtput⟩
    cases Chain.padded_zero.mp hchain
    cases hline
    cases houtput
    rfl
  · intro h
    cases h
    exact ⟨Chain.padded_zero.mpr rfl, rfl, rfl⟩

/-- What is executed does the same in one more scope, and that scope is still empty behind it. -/
def Transparent {α : Type} (p : Exec α) : Prop := ∀ m, p m.enter = mapState Machine.enter (p m)

theorem Transparent.of_padded {α : Type} {p : Exec α} (h : Simulates (Machine.Padded 0) p p) :
    Transparent p := by
  intro m
  have hp := h m m.enter (Machine.padded_zero.mpr rfl)
  generalize p m = r at hp
  generalize p m.enter = r' at hp
  cases hp with
  | ok hm => rw [Machine.padded_zero.mp hm, mapState_ok]
  | error hm => rw [Machine.padded_zero.mp hm, mapState_error]

/-- Whatever does not notice an additional scope can be executed without it. -/
theorem Transparent.inScope {p : Exec Unit} (h : Transparent p) : Exec.inScope p = p := by
  funext m
  have hp := h m
  unfold Exec.inScope
  rw [show p { m with chain := m.chain.enter } = mapState Machine.enter (p m) from hp]
  cases p m <;> rfl

/-- A statement that is no declaration does not notice one more scope. -/
theorem transparent_exec (b : Bounds) (room : Nat) {s : Stmt} (hs : s.PlacedBody) :
    Transparent (s.exec b room) :=
  .of_padded (padded_exec b room s hs.2 0 (.inl hs.1))

/-- Neither do several of them. -/
theorem transparent_execAll (b : Bounds) (room : Nat) {ss : List Stmt}
    (hss : ∀ s ∈ ss, s.PlacedBody) : Transparent (Stmt.execAll b room ss) := by
  refine .of_padded ?_
  induction ss with
  | nil => exact .pure _
  | cons s ss ih =>
    have hs := hss s List.mem_cons_self
    exact (padded_exec b room s hs.2 0 (.inl hs.1)).bind fun _ =>
      ih fun t ht => hss t (List.mem_cons_of_mem s ht)

/-- A block none of whose statements is a declaration needs no scope. -/
theorem exec_block_of_bodies (b : Bounds) (room : Nat) {ss : List Stmt}
    (hss : ∀ s ∈ ss, s.PlacedBody) (line : Int) :
    (Stmt.block ss line).exec b (room + 1) = (do
      Exec.start line
      Stmt.execAll b room ss) := by
  show (do
    Exec.start line
    Exec.inScope (Stmt.execAll b room ss)) = _
  rw [(transparent_execAll b room hss).inScope]

end LoxScript
