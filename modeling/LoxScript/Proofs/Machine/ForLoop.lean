import LoxScript.Proofs.Grammar.Settling
import LoxScript.Proofs.Scoping.EmptyScope
import LoxScript.Proofs.Scoping.Names

/-!
# What a "for" loop means

The grammar puts a "for" loop together from blocks and a "while" loop. `Exec.forLoop` says directly what
the loop does: its first clause is executed once, in a scope of the loop; then, in the same scope, the
condition, the body and the step take turns, up to a condition that does not hold. Both do the same, in
every state and however the loop ends (`exec_forLoop`).

The two differ in the block that is made of the body and the step. Its scope is of no consequence,
because the body of a loop is never a declaration: no name is ever bound in that scope.
-/

namespace LoxScript

/-! ## The meaning of a loop -/

namespace ForClauses

/-- Whether a "for" loop goes on. Without a condition it does. -/
def goesOn (b : Bounds) (room : Nat) (clauses : ForClauses) : Exec Bool :=
  match clauses.condition with
  | some e => Exec.holds b room e
  | none => return true

/-- One turn of a "for" loop on a given line: the body is executed once, and then the step, if there is
one, is evaluated and its value is dropped. A loop with a step takes one level of nesting more, and
notes its line again. -/
def turn (b : Bounds) (line : Int) (clauses : ForClauses) (body : Stmt) : (room : Nat) → Exec Unit
  | 0 => throw .overflow
  | room + 1 =>
    match clauses.step with
    | none => body.exec b (room + 1)
    | some e => do
      Exec.start line
      body.exec b room
      Exec.start e.line
      let _ ← Exec.value b (room - 1) e

/-- The turns of a "for" loop, as many as are granted at most: the loop ends where its condition does
not hold. -/
def rounds (b : Bounds) (line : Int) (room : Nat) (clauses : ForClauses) (body : Stmt) :
    (turns : Nat) → Exec Unit
  | 0 => throw .unfinished
  | turns + 1 => do
    if ← clauses.goesOn b room then
      clauses.turn b line body room
      rounds b line room clauses body turns

end ForClauses

/-- What a "for" loop on a given line does. If it has a first clause, the clause is executed once, in a
scope of the loop that is closed at the end of the loop or on an error; all turns are taken in that
scope. -/
def Exec.forLoop (b : Bounds) (line : Int) (clauses : ForClauses) (body : Stmt) :
    (room : Nat) → Exec Unit
  | 0 => throw .overflow
  | room + 1 => do
    Exec.start line
    match clauses.first with
    | none => clauses.rounds b line room body b.turns
    | some s =>
      Exec.inScope do
        s.exec b room
        Exec.start line
        clauses.rounds b line (room - 1) body b.turns

/-! ## Both do the same -/

/-- The condition that the grammar puts into the "while" loop. -/
def ForClauses.test (line : Int) (clauses : ForClauses) : Expr :=
  clauses.condition.getD (.literal (.bool true) line)

/-- The body that the grammar puts into the "while" loop. -/
def ForClauses.wrapped (line : Int) (clauses : ForClauses) (body : Stmt) : Stmt :=
  match clauses.step with
  | some e => .block [body, .expression e e.line] line
  | none => body

theorem Stmt.forLoop_eq (line : Int) (clauses : ForClauses) (body : Stmt) :
    Stmt.forLoop line clauses body =
      match clauses.first with
      | some s => .block [s, .loop (clauses.test line) (clauses.wrapped line body) line] line
      | none => .loop (clauses.test line) (clauses.wrapped line body) line := rfl

section

variable {b : Bounds} {line : Int} {clauses : ForClauses} {body : Stmt}

/-- Without room nothing is executed, and nothing behind it. -/
theorem exec_zero_bind {α : Type} (s : Stmt) (f : Unit → Exec α) :
    (s.exec b 0 >>= f) = throw .overflow := by
  rw [exec_zero]
  rfl

/-- The block around the body and the step is of no consequence. -/
theorem exec_wrapped (hbody : body.PlacedBody) (room : Nat) :
    (clauses.wrapped line body).exec b room = clauses.turn b line body room := by
  unfold ForClauses.wrapped
  cases room with
  | zero => exact exec_zero b _
  | succ room =>
    unfold ForClauses.turn
    cases clauses.step with
    | none => rfl
    | some e =>
      have hbodies : ∀ s ∈ [body, .expression e e.line], s.PlacedBody :=
        List.forall_mem_cons.mpr ⟨hbody, List.forall_mem_singleton.mpr ⟨rfl, trivial⟩⟩
      dsimp only
      rw [exec_block_of_bodies b room hbodies]
      refine congrArg (Exec.start line >>= ·) (funext fun _ => ?_)
      rw [Stmt.execAll_cons, Stmt.execAll_singleton]
      cases room with
      | zero => rw [exec_zero_bind, exec_zero_bind]
      | succ room => rfl

/-- The "while" loop takes the turns of the "for" loop. -/
theorem repeatWhile_eq_rounds (hbody : body.PlacedBody) (room turns : Nat) :
    Exec.repeatWhile (Exec.holds b room (clauses.test line))
        ((clauses.wrapped line body).exec b room) turns =
      clauses.rounds b line room body turns := by
  induction turns with
  | zero => rfl
  | succ turns ih =>
    rw [Exec.repeatWhile, ForClauses.rounds, ih, exec_wrapped hbody]
    unfold ForClauses.test ForClauses.goesOn
    cases clauses.condition with
    | some e => rfl
    | none =>
      -- a condition that is absent holds, unless there is no room even for a literal
      cases room with
      | zero => rfl
      | succ room => rfl

theorem exec_loop (hbody : body.PlacedBody) (room : Nat) :
    (Stmt.loop (clauses.test line) (clauses.wrapped line body) line).exec b (room + 1) = (do
      Exec.start line
      clauses.rounds b line room body b.turns) := by
  show (do
    Exec.start line
    Exec.repeatWhile (Exec.holds b room (clauses.test line))
      ((clauses.wrapped line body).exec b room) b.turns) = _
  rw [repeatWhile_eq_rounds hbody]

/-- A "for" loop whose body is no declaration does what `Exec.forLoop` says. -/
theorem exec_forLoop (hbody : body.PlacedBody) (room : Nat) :
    (Stmt.forLoop line clauses body).exec b room = Exec.forLoop b line clauses body room := by
  rw [Stmt.forLoop_eq]
  cases room with
  | zero => exact exec_zero b _
  | succ room =>
    unfold Exec.forLoop
    cases clauses.first with
    | none => exact exec_loop hbody room
    | some s =>
      show (do
        Exec.start line
        Exec.inScope (Stmt.execAll b room [s, _])) = _
      refine congrArg (fun p => Exec.start line >>= fun _ => Exec.inScope p) ?_
      rw [Stmt.execAll_cons, Stmt.execAll_singleton]
      -- without room the first clause cannot be executed, and the loop is not reached
      cases room with
      | zero => rw [exec_zero_bind, exec_zero_bind]
      | succ room =>
        rw [exec_loop hbody]
        rfl

end

/-! ## Loops that are read -/

namespace Parse

/-- Where a statement begins with the word "for", the clauses and the body of a loop are read. -/
theorem statement_forWord {nesting : Nat} {s s₁ : ParseState} {word : Token} {later : List Token}
    {st : Stmt} (hrest : s.cursor.rest = word :: later) (hword : word.kind = .forWord)
    (h : statement nesting s = .ok st s₁) :
    ∃ (n : Nat) (clauses : ForClauses) (s₂ : ParseState) (body : Stmt), nesting = n + 1 ∧
      forClauses (expression n) s.advance = .ok clauses s₂ ∧ statement n s₂ = .ok body s₁ ∧
      st = .forLoop word.line clauses body := by
  cases nesting with
  | zero => cases h
  | succ n =>
    have haccept : accept [.forWord, .ifWord, .printWord, .whileWord, .leftBrace] s =
        .ok (some word) s.advance := accept_of_mem hrest (by simp [hword])
    obtain ⟨o, s', ho, hloop⟩ := bind_eq_ok.mp h
    rw [haccept] at ho
    cases ho
    simp only [hword] at hloop
    obtain ⟨clauses, s₂, hclauses, hrest⟩ := bind_eq_ok.mp hloop
    obtain ⟨body, s₃, hbody, hresult⟩ := bind_eq_ok.mp hrest
    cases hresult
    exact ⟨n, clauses, s₂, body, rfl, hclauses, hbody, rfl⟩

end Parse

/-- A "for" loop keeps its meaning when it is put together from blocks and a "while" loop. Wherever a
statement is read that begins with the word "for", its execution is what `Exec.forLoop` says of the
clauses and of the body that were read: in every state it prints the same, leaves the same bindings in
every scope, and ends in the same way, be it at the end of the loop, by an error or for want of a
resource. The scope that is put around the body and the step is still empty behind the body, and the
body changes the names in no other scope, however it ends. -/
theorem forLoop_keeps_its_meaning (nesting : Nat) (s s₁ : ParseState) (word : Token)
    (later : List Token) (st : Stmt) (hrest : s.cursor.rest = word :: later)
    (hword : word.kind = .forWord) (h : Parse.statement nesting s = .ok st s₁) :
    ∃ (n : Nat) (clauses : ForClauses) (s₂ : ParseState) (body : Stmt), nesting = n + 1 ∧
      Parse.forClauses (Parse.expression n) s.advance = .ok clauses s₂ ∧
      Parse.statement n s₂ = .ok body s₁ ∧
      (∀ (b : Bounds) (room : Nat) (m : Machine),
        st.exec b room m = Exec.forLoop b word.line clauses body room m) ∧
      ∀ (b : Bounds) (room : Nat) (m : Machine),
        body.exec b room m.enter = mapState Machine.enter (body.exec b room m) ∧
          (endState (body.exec b room m)).chain.names = m.chain.names := by
  obtain ⟨n, clauses, s₂, body, hn, hclauses, hread, rfl⟩ := Parse.statement_forWord hrest hword h
  have hbody : body.PlacedBody := Parse.ensures_statement n s₂ body s₁ hread
  refine ⟨n, clauses, s₂, body, hn, hclauses, hread, fun b room m => ?_, fun b room m => ⟨?_, ?_⟩⟩
  · rw [exec_forLoop hbody]
  · exact transparent_exec b room hbody m
  · exact frames_exec b room body hbody m

/-- A loop that takes two turns if it finds a variable "later" that is true. Its body declares a
variable of the name that the condition reads. -/
def twiceSource : String :=
  "for (var go = true; go; go = more) \x7b var go; print go; more = later; later = nil; \x7d"

/-- A machine on which the loop takes a second turn. -/
def laterMachine : Machine := .ofGlobal ⟨[("more", .nil), ("later", .bool true)]⟩

theorem twiceSource_runs :
    ∃ st s₁ clauses body,
      Parse.statement 9 (.ofTokens (Scan.ofSource twiceSource).tokens) = .ok st s₁ ∧
        st.exec {} 9 laterMachine = Exec.forLoop {} 1 clauses body 9 laterMachine ∧
        (endState (st.exec {} 9 laterMachine)).output = "nil\nnil\n" := by
  have hfirst : (ParseState.ofTokens (Scan.ofSource twiceSource).tokens).cursor.rest.head? =
      some ⟨.forWord, "for", .nil, 1⟩ := by decide +kernel
  obtain ⟨later, hrest⟩ := List.head?_eq_some_iff.mp hfirst
  have hprints : ((Parse.statement 9).run' (.ofTokens (Scan.ofSource twiceSource).tokens)).map
      (fun st => (endState (st.exec {} 9 laterMachine)).output) = some "nil\nnil\n" := by
    decide +kernel
  unfold EStateM.run' EStateM.run at hprints
  cases h : Parse.statement 9 (.ofTokens (Scan.ofSource twiceSource).tokens) with
  | ok st s₁ =>
    rw [h] at hprints
    obtain ⟨_, clauses, _, body, -, -, -, hexec, -⟩ :=
      forLoop_keeps_its_meaning 9 _ s₁ _ later st hrest rfl h
    exact ⟨st, s₁, clauses, body, rfl, hexec {} 9 _, Option.some.inj hprints⟩
  | error e s₁ =>
    rw [h] at hprints
    cases hprints

end LoxScript
