import LoxScript.Proofs.Grammar.Relabeling
import LoxScript.Proofs.Machine.Sequence

/-!
# Executing a program with other names and on other lines

Scopes ask only whether two names are the same, and lines matter to an execution only where it is
broken off: an error blames a token, and a token has a line. So if no two names become one, a program
with other labels does the same on a machine with the same scopes but for the names in them, whatever
that machine has printed already; and if it is broken off, then by the same error with another label.
-/

namespace LoxScript

variable {ρ : Relabeling} {f : String → String} {α β : Type}

/-! ## Scopes with other names -/

namespace Scope

/-- Bindings of other names to the same values, in the same order. -/
def renameAll (f : String → String) (bs : List (String × Value)) : List (String × Value) :=
  bs.map fun b => (f b.1, b.2)

/-- The scope with other names. -/
def renamed (f : String → String) (s : Scope) : Scope := ⟨renameAll f s.bindings⟩

/-- As no two names become one, a binding is found by its other name. -/
theorem get?_renameAll (hf : f.Injective) (x : String) (bs : List (String × Value)) :
    get? (f x) (renameAll f bs) = get? x bs := by
  induction bs with
  | nil => rfl
  | cons b bs ih =>
    have hcons : renameAll f (b :: bs) = (f b.1, b.2) :: renameAll f bs := rfl
    rw [hcons, get?, get?, ih]
    simp only [hf.eq_iff]

/-- And it is replaced where it stands. -/
theorem put_renameAll (hf : f.Injective) (x : String) (v : Value) (bs : List (String × Value)) :
    put (f x) v (renameAll f bs) = renameAll f (put x v bs) := by
  induction bs with
  | nil => rfl
  | cons b bs ih =>
    have hcons : renameAll f (b :: bs) = (f b.1, b.2) :: renameAll f bs := rfl
    rw [hcons, put, put, ih]
    simp only [hf.eq_iff]
    split <;> rfl

theorem find?_renamed (hf : f.Injective) (s : Scope) (x : String) :
    (s.renamed f).find? (f x) = s.find? x :=
  get?_renameAll hf x s.bindings

theorem binds_renamed (hf : f.Injective) (s : Scope) (x : String) :
    (s.renamed f).binds (f x) = s.binds x := by
  rw [binds, find?_renamed hf, binds]

theorem define_renamed (hf : f.Injective) (s : Scope) (x : String) (v : Value) :
    (s.renamed f).define (f x) v = (s.define x v).renamed f :=
  congrArg Scope.mk (put_renameAll hf x v s.bindings)

end Scope

namespace Chain

/-- The scopes with other names. -/
def renamed (f : String → String) (c : Chain) : Chain :=
  ⟨c.inner.map (Scope.renamed f), c.global.renamed f⟩

theorem enter_renamed (c : Chain) : (c.renamed f).enter = c.enter.renamed f := rfl

theorem leave_renamed (c : Chain) : (c.renamed f).leave = c.leave.renamed f := by
  simp only [leave, renamed, List.map_tail]

theorem find?_renamed (hf : f.Injective) (c : Chain) (x : String) :
    (c.renamed f).find? (f x) = c.find? x := by
  have hscopes : (c.renamed f).scopes = c.scopes.map (Scope.renamed f) := by
    simp [scopes, renamed]
  unfold find?
  rw [hscopes, List.findSome?_map]
  exact congrArg (fun g => c.scopes.findSome? g) (funext fun s => s.find?_renamed hf x)

theorem define_renamed (hf : f.Injective) (c : Chain) (x : String) (v : Value) :
    (c.renamed f).define (f x) v = (c.define x v).renamed f := by
  obtain ⟨inner, g⟩ := c
  cases inner <;> simp [define, renamed, Scope.define_renamed hf]

/-- An assignment finds the same scope. -/
theorem assignIn_renamed (hf : f.Injective) (x : String) (v : Value) (ss : List Scope) :
    assignIn (f x) v (ss.map (Scope.renamed f)) =
      (assignIn x v ss).map (List.map (Scope.renamed f)) := by
  induction ss with
  | nil => rfl
  | cons s ss ih =>
    rw [List.map_cons, assignIn, assignIn, Scope.binds_renamed hf, Scope.define_renamed hf, ih]
    split
    · rfl
    · simp [Function.comp_def]

/-- So it does in the chain, and it fails as it did before. -/
theorem assign?_renamed (hf : f.Injective) (c : Chain) (x : String) (v : Value) :
    (c.renamed f).assign? (f x) v = (c.assign? x v).map (renamed f) := by
  have hinner := assignIn_renamed hf x v c.inner
  unfold assign?
  rw [show (c.renamed f).inner = c.inner.map (Scope.renamed f) from rfl, hinner]
  cases assignIn x v c.inner with
  | some ss => rfl
  | none =>
    show (if (c.global.renamed f).binds (f x) = true then _ else _) = _
    rw [Scope.binds_renamed hf, show (c.renamed f).global = c.global.renamed f from rfl,
      Scope.define_renamed hf]
    dsimp only [Option.map_none]
    split <;> rfl

end Chain

/-! ## Reasons with other labels -/

/-- An error with another label. A variable that is not bound is blamed by its name; everything else
that goes wrong is blamed on an operator. -/
def RuntimeError.relabeled (ρ : Relabeling) (e : RuntimeError) : RuntimeError :=
  match e.cause with
  | .undefinedVariable => ⟨e.token.renamed ρ, e.cause⟩
  | _ => ⟨e.token.relabeled ρ, e.cause⟩

/-- The same reason with another label. -/
def Halt.relabeled (ρ : Relabeling) : Halt → Halt
  | error e => .error (e.relabeled ρ)
  | unknownOperator op => .unknownOperator (op.relabeled ρ)
  | unknownStatement kind line => .unknownStatement kind (ρ.line line)
  | h => h

/-! ## Operations -/

namespace Value

/-- A prefix operator does the same by its other label, and blames it by that one. -/
theorem unary_relabeled (op : Token) (v : Value) :
    unary (op.relabeled ρ) v = (unary op v).mapError (Halt.relabeled ρ) := by
  unfold unary
  rw [op.kind_relabeled]
  cases op.kind <;> cases v <;> rfl

theorem add_relabeled (op : Token) (v w : Value) :
    add (op.relabeled ρ) v w = (add op v w).mapError (Halt.relabeled ρ) := by
  cases v <;> cases w <;> rfl

theorem numeric_relabeled (op : Token) (x y : Float) :
    numeric (op.relabeled ρ) x y = (numeric op x y).mapError (Halt.relabeled ρ) := by
  unfold numeric
  rw [op.kind_relabeled]
  cases op.kind <;> rfl

theorem binary_relabeled (op : Token) (v w : Value) :
    binary (op.relabeled ρ) v w = (binary op v w).mapError (Halt.relabeled ρ) := by
  have hnumeric : ∀ x y, numeric (op.relabeled ρ) x y =
      (numeric op x y).mapError (Halt.relabeled ρ) := numeric_relabeled op
  unfold binary
  rw [op.kind_relabeled]
  cases op.kind with
  | equalEqual | bangEqual => rfl
  | plus => exact add_relabeled op v w
  | _ =>
    cases v with
    | number x =>
      cases w with
      | number y => exact hnumeric x y
      | _ => rfl
    | _ => rfl

end Value

/-! ## Evaluation -/

namespace Eval

/-- Where the names of the scopes are others, the second evaluation does what the first one does in
the given scopes. -/
abbrev Relabels (ρ : Relabeling) (p q : Eval α) : Prop :=
  Translates (fun c c' => c' = Chain.renamed ρ.name c) (Halt.relabeled ρ) id p q

theorem relabels_ofExcept (r : Except Halt α) :
    Relabels ρ (ofExcept r) (ofExcept (r.mapError (Halt.relabeled ρ))) := by
  cases r with
  | ok a => exact .pure a
  | error h => exact .throw h

/-- A variable is read by its other name, and is blamed by it. -/
theorem relabels_read (hname : ρ.name.Injective) {trap trap' : String → Bool}
    (htrap : ∀ x, trap' (ρ.name x) = trap x) (name : Token) :
    Relabels ρ (read trap name) (read trap' (name.renamed ρ)) := by
  rintro c _ rfl
  unfold read
  rw [Token.lexeme_renamed, htrap, Chain.find?_renamed hname]
  split
  · exact .error rfl
  · cases c.find? name.lexeme with
    | some v => exact .ok rfl
    | none => exact .error rfl

/-- It is assigned to by its other name as well. -/
theorem relabels_assign (hname : ρ.name.Injective) (name : Token) (v : Value) :
    Relabels ρ (assign name v) (assign (name.renamed ρ) v) := by
  rintro c _ rfl
  unfold assign
  rw [Token.lexeme_renamed, Chain.assign?_renamed hname]
  cases c.assign? name.lexeme v with
  | some c' => exact .ok rfl
  | none => exact .error rfl

end Eval

/-- An expression with other labels has the same value, or is broken off by the same error with
another label. -/
theorem Expr.eval_relabeled (hname : ρ.name.Injective) {trap trap' : String → Bool}
    (htrap : ∀ x, trap' (ρ.name x) = trap x) (room : Nat) (e : Expr) :
    Eval.Relabels ρ (e.eval trap room) ((e.relabeled ρ).eval trap' room) := by
  induction room generalizing e with
  | zero =>
    rw [eval_zero, eval_zero]
    exact .throw _
  | succ room ih =>
    cases e with
    | literal v line => exact .pure v
    | read name line => exact Eval.relabels_read hname htrap name
    | grouping e line => exact ih e
    | assign name e line =>
      exact (ih e).bind fun v => (Eval.relabels_assign hname name v).bind fun _ => .pure v
    | unary op e line =>
      refine (ih e).bind fun v => ?_
      rw [Value.unary_relabeled]
      exact Eval.relabels_ofExcept _
    | binary l op r line =>
      refine (ih l).bind fun v => (ih r).bind fun w => ?_
      rw [Value.binary_relabeled]
      exact Eval.relabels_ofExcept _
    | logical l op r line =>
      refine (ih l).bind fun v => ?_
      rw [op.kind_relabeled]
      exact .choice (.pure v) (ih r)
    | malformed kind line => exact .throw _

/-! ## Execution -/

/-- The same bounds, but for the names in the trap. -/
structure Bounds.Relabeled (ρ : Relabeling) (b b' : Bounds) : Prop where
  nesting : b'.nesting = b.nesting
  room : b'.room = b.room
  turns : b'.turns = b.turns
  trap : ∀ x, b'.trap (ρ.name x) = b.trap x

/-- The second machine has the scopes of the first one with other names, has printed `before` in
addition to what the first one has printed, and is on a line that is related to the line of the first
one. -/
structure Machine.Relabeled (ρ : Relabeling) (lines : Int → Int → Prop) (before : String)
    (m m' : Machine) : Prop where
  chain : m'.chain = m.chain.renamed ρ.name
  line : lines m.line m'.line
  output : m'.output = before ++ m.output

variable {lines : Int → Int → Prop} {before : String}

namespace Exec

/-- The second execution does what the first one does, but for the labels. -/
abbrev Relabels (ρ : Relabeling) (lines : Int → Int → Prop) (before : String) (p q : Exec α) : Prop :=
  Translates (Machine.Relabeled ρ lines before) (Halt.relabeled ρ) id p q

namespace Relabels

theorem start (hlines : ∀ l, lines l (ρ.line l)) (line : Int) :
    Relabels ρ lines before (start line) (start (ρ.line line)) :=
  fun _ _ h => .ok ⟨h.chain, hlines line, h.output⟩

theorem print (v : Value) : Relabels ρ lines before (print v) (print v) := by
  intro m m' h
  refine .ok ⟨h.chain, h.line, ?_⟩
  show m'.output ++ Text.line v.display = before ++ (m.output ++ Text.line v.display)
  rw [h.output, String.append_assoc]

theorem define (hname : ρ.name.Injective) (x : String) (v : Value) :
    Relabels ρ lines before (define x v) (define (ρ.name x) v) := by
  intro m m' h
  refine .ok ⟨?_, h.line, h.output⟩
  show m'.chain.define (ρ.name x) v = (m.chain.define x v).renamed ρ.name
  rw [h.chain, Chain.define_renamed hname]

theorem inScope {p q : Exec Unit} (h : Relabels ρ lines before p q) :
    Relabels ρ lines before (inScope p) (inScope q) := by
  intro m m' hm
  have hbody := h { m with chain := m.chain.enter } { m' with chain := m'.chain.enter }
    ⟨by rw [hm.chain, Chain.enter_renamed], hm.line, hm.output⟩
  have hleave : ∀ m₁ m₁' : Machine, m₁.Relabeled ρ lines before m₁' →
      Machine.Relabeled ρ lines before { m₁ with chain := m₁.chain.leave }
        { m₁' with chain := m₁'.chain.leave } :=
    fun m₁ m₁' h₁ => ⟨by rw [h₁.chain, Chain.leave_renamed], h₁.line, h₁.output⟩
  unfold Exec.inScope
  generalize p { m with chain := m.chain.enter } = r at hbody
  generalize q { m' with chain := m'.chain.enter } = r' at hbody
  cases hbody with
  | ok hm₁ => exact .ok (hleave _ _ hm₁)
  | error hm₁ => exact .error (hleave _ _ hm₁)

theorem repeatWhile {test test' : Exec Bool} {body body' : Exec Unit}
    (ht : Relabels ρ lines before test test') (hb : Relabels ρ lines before body body')
    (turns : Nat) :
    Relabels ρ lines before (repeatWhile test body turns) (repeatWhile test' body' turns) := by
  induction turns with
  | zero => exact .throw _
  | succ turns ih =>
    refine ht.bind fun goes => ?_
    cases goes with
    | false => exact .pure ()
    | true => exact hb.bind fun _ => ih

section

variable {b b' : Bounds}

theorem value (hname : ρ.name.Injective) (hb : b.Relabeled ρ b') (room : Nat) (e : Expr) :
    Relabels ρ lines before (value b room e) (value b' room (e.relabeled ρ)) := by
  intro m m' h
  have heval := e.eval_relabeled hname hb.trap room m.chain m'.chain h.chain
  unfold Exec.value ofEval
  generalize e.eval b.trap room m.chain = r at heval
  generalize (e.relabeled ρ).eval b'.trap room m'.chain = r' at heval
  cases heval with
  | ok hc => exact .ok ⟨hc, h.line, h.output⟩
  | error hc => exact .error ⟨hc, h.line, h.output⟩

theorem holds (hname : ρ.name.Injective) (hb : b.Relabeled ρ b') (room : Nat) (e : Expr) :
    Relabels ρ lines before (holds b room e) (holds b' room (e.relabeled ρ)) :=
  (value hname hb room e).bind fun v => .pure v.truthy

end

end Relabels

end Exec

namespace Stmt

open Exec

variable {b b' : Bounds}

mutual

/-- A statement with other labels does the same, or is broken off by the same error with another
label. -/
theorem exec_relabeled (hname : ρ.name.Injective) (hlines : ∀ l, lines l (ρ.line l))
    (hb : b.Relabeled ρ b') (room : Nat) (s : Stmt) :
    Relabels ρ lines before (s.exec b room) ((s.relabeled ρ).exec b' room) := by
  cases room with
  | zero =>
    rw [exec_zero, exec_zero]
    exact .throw _
  | succ room =>
    cases s with
    | expression e line =>
      exact (Relabels.start hlines line).bind fun _ =>
        (Relabels.value hname hb room e).bind fun _ => .pure ()
    | print e line =>
      exact (Relabels.start hlines line).bind fun _ =>
        (Relabels.value hname hb room e).bind fun v => Relabels.print v
    | declare name first line =>
      cases first with
      | none => exact (Relabels.start hlines line).bind fun _ => Relabels.define hname _ _
      | some e =>
        exact (Relabels.start hlines line).bind fun _ =>
          (Relabels.value hname hb room e).bind fun v => Relabels.define hname _ v
    | block body line =>
      exact (Relabels.start hlines line).bind fun _ =>
        (execAll_relabeled hname hlines hb room body).inScope
    | ifThen c s line =>
      refine (Relabels.start hlines line).bind fun _ =>
        (Relabels.holds hname hb room c).bind fun v => ?_
      cases v with
      | true => exact exec_relabeled hname hlines hb room s
      | false => exact .pure ()
    | ifElse c s t line =>
      refine (Relabels.start hlines line).bind fun _ =>
        (Relabels.holds hname hb room c).bind fun v => ?_
      cases v with
      | true => exact exec_relabeled hname hlines hb room s
      | false => exact exec_relabeled hname hlines hb room t
    | loop c s line =>
      -- both loops are granted the same number of turns
      show Relabels ρ lines before (do
          Exec.start line
          Exec.repeatWhile (Exec.holds b room c) (s.exec b room) b.turns) (do
          Exec.start (ρ.line line)
          Exec.repeatWhile (Exec.holds b' room (c.relabeled ρ)) ((s.relabeled ρ).exec b' room)
            b'.turns)
      rw [hb.turns]
      exact (Relabels.start hlines line).bind fun _ =>
        (Relabels.holds hname hb room c).repeatWhile (exec_relabeled hname hlines hb room s) b.turns
    | malformed kind line => exact (Relabels.start hlines line).bind fun _ => .throw _

/-- Statements in a row do the same one after another. -/
theorem execAll_relabeled (hname : ρ.name.Injective) (hlines : ∀ l, lines l (ρ.line l))
    (hb : b.Relabeled ρ b') (room : Nat) (ss : List Stmt) :
    Relabels ρ lines before (execAll b room ss) (execAll b' room (relabeledAll ρ ss)) := by
  cases ss with
  | nil => exact .pure ()
  | cons s ss =>
    exact (exec_relabeled hname hlines hb room s).bind fun _ =>
      execAll_relabeled hname hlines hb room ss

end

end Stmt

end LoxScript
