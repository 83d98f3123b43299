import LoxScript.Proofs.Scoping.Names

/-!
# Lexical scoping

A running program finds a variable by searching its scopes from the inside out, and scopes fill up
while it runs. Nevertheless the search always ends at the address that can be read off the program
text (`lexical_scoping`): when a statement is reached, each open scope binds exactly the names that
its block has declared before the statement, on every turn of every loop. That is the invariant
`m.chain.layers = ls`; it holds because only a declaration adds a name, and because the grammar puts
declarations in blocks only.
-/

namespace LoxScript

/-! ## Where the search ends -/

namespace Address

/-- The same scope, as it is addressed from one scope further inside. -/
def outwards : Address → Address
  | hops n => hops (n + 1)
  | global => global

end Address

namespace Chain

theorem nearest_nil (g : Scope) (x : String) : nearest ⟨[], g⟩ x = .global := rfl

/-- The nearest scope is the innermost one or further out. -/
theorem nearest_cons (s : Scope) (ss : List Scope) (g : Scope) (x : String) :
    nearest ⟨s :: ss, g⟩ x = if s.binds x then .hops 0 else (nearest ⟨ss, g⟩ x).outwards := by
  simp only [nearest, List.findIdx?_cons]
  by_cases hs : s.binds x = true
  · rw [if_pos hs, if_pos hs]
  · rw [if_neg hs, if_neg hs]
    cases ss.findIdx? (·.binds x) <;> rfl

theorem findAt?_outwards (s : Scope) (ss : List Scope) (g : Scope) (a : Address) (x : String) :
    findAt? ⟨s :: ss, g⟩ a.outwards x = findAt? ⟨ss, g⟩ a x := by
  cases a <;> rfl

theorem defineAt_outwards (s : Scope) (ss : List Scope) (g : Scope) (x : String) (v : Value)
    (a : Address) :
    defineAt ⟨s :: ss, g⟩ x v a.outwards =
      { defineAt ⟨ss, g⟩ x v a with inner := s :: (defineAt ⟨ss, g⟩ x v a).inner } := by
  cases a <;> rfl

/-- The address of a name depends on the names in the scopes only. -/
theorem nearest_eq_address (c : Chain) (x : String) : c.nearest x = c.layers.address x := by
  have h : ∀ s : Scope, s.binds x = decide (x ∈ s.names) := by
    intro s
    rw [Bool.eq_iff_iff, s.binds_iff, decide_eq_true_iff]
  simp only [nearest, Layers.address, layers, List.findIdx?_map, Function.comp_def, h]

/-- The value of a name is the one in the scope where the search ends. -/
theorem find?_eq_findAt? (c : Chain) (x : String) : c.find? x = c.findAt? (c.nearest x) x := by
  obtain ⟨inner, g⟩ := c
  induction inner with
  | nil =>
    simp only [find?, scopes, List.nil_append, List.findSome?_cons, List.findSome?_nil]
    cases h : g.find? x <;> simp [nearest_nil, findAt?, scopeAt?, h]
  | cons s ss ih =>
    have hstep : find? ⟨s :: ss, g⟩ x = (s.find? x).or (find? ⟨ss, g⟩ x) := by
      simp only [find?, scopes, List.cons_append, List.findSome?_cons]
      cases s.find? x <;> rfl
    rw [hstep, nearest_cons]
    split
    · next hs =>
      obtain ⟨v, hv⟩ := Option.isSome_iff_exists.mp hs
      simp [findAt?, scopeAt?, hv]
    · next hs =>
      have hn : s.find? x = none := by simpa [Scope.binds] using hs
      rw [findAt?_outwards, hn, Option.none_or, ih]

/-- An assignment is made in the innermost scope or further out. -/
theorem assign?_cons (s : Scope) (ss : List Scope) (g : Scope) (x : String) (v : Value) :
    assign? ⟨s :: ss, g⟩ x v =
      if s.binds x then some ⟨s.define x v :: ss, g⟩
      else (assign? ⟨ss, g⟩ x v).map fun c => { c with inner := s :: c.inner } := by
  by_cases hs : s.binds x = true
  · simp [assign?, assignIn, hs]
  · cases h : assignIn x v ss with
    | none => by_cases hg : g.binds x = true <;> simp [assign?, assignIn, hs, h, hg]
    | some ss' => simp [assign?, assignIn, hs, h]

/-- An assignment changes the binding in the scope where the search ends, if there is one. -/
theorem assign?_eq_defineAt (c : Chain) (x : String) (v : Value) :
    c.assign? x v =
      if (c.findAt? (c.nearest x) x).isSome then some (c.defineAt x v (c.nearest x)) else none := by
  obtain ⟨inner, g⟩ := c
  induction inner with
  | nil => rfl
  | cons s ss ih =>
    rw [assign?_cons, nearest_cons]
    split
    · next hs =>
      have hf : (findAt? ⟨s :: ss, g⟩ (.hops 0) x).isSome = true := hs
      rw [if_pos hf]
      rfl
    · rw [findAt?_outwards, ih]
      split
      · rw [defineAt_outwards]
        rfl
      · rfl

end Chain

/-! ## Access that agrees with the search -/

/-- At the address where the search for a name ends, `access` does what follows the search. -/
structure Access.Faithful (access : Access) : Prop where
  read : ∀ (c : Chain) (name : Token),
    access.read name (c.nearest name.lexeme) c = Eval.read (fun _ => false) name c
  write : ∀ (c : Chain) (name : Token) (v : Value),
    access.write name (c.nearest name.lexeme) v c = Eval.assign name v c

/-- Access that goes straight to the address does what the search does. -/
theorem faithful_direct : Access.direct.Faithful where
  read c name := by
    simp only [Access.direct, Eval.read, c.find?_eq_findAt?]
    rfl
  write c name v := by
    simp only [Access.direct, Eval.assign, c.assign?_eq_defineAt]
    split <;> rfl

/-- So does access that raises an alarm where the search does not end at the address. -/
theorem faithful_watched (alarm : Halt) : (Access.watched alarm).Faithful where
  read _ _ := if_pos rfl
  write _ _ _ := if_pos rfl

/-! ## Programs with addresses do the same -/

/-- Two loops agree if their tests and bodies agree wherever a turn can begin. -/
theorem repeatWhile_congr {P : Machine → Prop} {test test' : Exec Bool} {body body' : Exec Unit}
    (ht : ∀ m, P m → test m = test' m) (htP : ∀ m v m', P m → test' m = .ok v m' → P m')
    (hb : ∀ m, P m → body m = body' m) (hbP : ∀ m u m', P m → body' m = .ok u m' → P m')
    (turns : Nat) {m : Machine} (hm : P m) :
    Exec.repeatWhile test body turns m = Exec.repeatWhile test' body' turns m := by
  induction turns generalizing m with
  | zero => rfl
  | succ turns ih =>
    refine bind_congr_at (ht m hm) fun v m₁ h₁ => ?_
    have hm₁ := htP m v m₁ hm h₁
    split
    · exact bind_congr_at (hb m₁ hm₁) fun u m₂ h₂ => ih (hbP m₁ u m₂ hm₁ h₂)
    · rfl

variable {access : Access}

/-- Where every scope binds the names that the text lets expect, an expression with addresses has
the outcome that it has without them. -/
theorem eval_bound (ha : access.Faithful) (trap : String → Bool) (room : Nat) (e : Expr)
    {ls : Layers} {c : Chain} (hc : c.layers = ls) :
    (e.bound ls).eval access trap room c = e.eval trap room c := by
  induction room generalizing e c with
  | zero => cases e <;> rfl
  | succ room ih =>
    cases e with
    | literal v _ => rfl
    | grouping e _ => exact ih e hc
    | read name _ =>
      rw [Expr.bound, BoundExpr.eval, Expr.eval]
      by_cases ht : trap name.lexeme = true
      · simp [Eval.read, ht]
      · rw [if_neg ht, ← hc, ← c.nearest_eq_address, ha.read]
        simp [Eval.read, ht]
    | assign name e _ =>
      -- the name is looked up behind its new value, which has changed no name
      refine bind_congr_at (ih e hc) fun v c₁ h₁ => bind_congr_at ?_ fun _ _ _ => rfl
      rw [← hc, ← layers_eval h₁, ← c₁.nearest_eq_address, ha.write]
    | logical l op r _ =>
      refine bind_congr_at (ih l hc) fun v c₁ h₁ => ?_
      split
      · rfl
      · exact ih r ((layers_eval h₁).trans hc)
    | unary op e _ => exact bind_congr_at (ih e hc) fun _ _ _ => rfl
    | binary l op r _ =>
      exact bind_congr_at (ih l hc) fun v c₁ h₁ =>
        bind_congr_at (ih r ((layers_eval h₁).trans hc)) fun _ _ _ => rfl
    | malformed _ _ => rfl

/-- A value is the same, whether names are bound to addresses or searched for. -/
theorem value_bound (ha : access.Faithful) (b : Bounds) (room : Nat) (e : Expr) {ls : Layers}
    {m : Machine} (hm : m.chain.layers = ls) :
    (e.bound ls).value access b room m = Exec.value b room e m := by
  simp only [BoundExpr.value, Exec.value, Exec.ofEval, eval_bound ha b.trap room e hm]

theorem holds_bound (ha : access.Faithful) (b : Bounds) (room : Nat) (e : Expr) {ls : Layers}
    {m : Machine} (hm : m.chain.layers = ls) :
    (e.bound ls).holds access b room m = Exec.holds b room e m :=
  bind_congr_at (value_bound ha b room e hm) fun _ _ _ => rfl

/-- A statement begins with its line, which the scopes do not depend on. -/
theorem start_congr {α : Type} {f f' : Unit → Exec α} {line : Int} {m : Machine}
    (h : f () { m with line := line } = f' () { m with line := line }) :
    (Exec.start line >>= f) m = (Exec.start line >>= f') m := by
  refine bind_congr_at rfl fun _ m₁ h₁ => ?_
  cases h₁
  exact h

mutual

/-- What `eval_bound` says of expressions holds of statements. -/
theorem exec_bound (ha : access.Faithful) (b : Bounds) (room : Nat) (s : Stmt) (hs : s.Placed)
    {ls : Layers} {m : Machine} (hm : m.chain.layers = ls) :
    (s.bound ls).exec access b room m = s.exec b room m := by
  cases room with
  | zero =>
    rw [exec_zero]
    cases s <;> try rfl
    next first _ => cases first <;> rfl
  | succ room =>
    cases s with
    | expression e line =>
      exact start_congr (bind_congr_at (value_bound ha b room e hm) fun _ _ _ => rfl)
    | print e line =>
      exact start_congr (bind_congr_at (value_bound ha b room e hm) fun _ _ _ => rfl)
    | declare name first line =>
      cases first with
      | none => rfl
      | some e =>
        exact start_congr (bind_congr_at (value_bound ha b room e hm) fun _ _ _ => rfl)
    | block body line =>
      refine start_congr ?_
      -- a block begins without declarations of its own
      have henter : m.chain.enter.layers = [] :: ls := by
        rw [← hm]
        rfl
      have hb := execAll_bound ha b room body hs
        (m := { m with chain := m.chain.enter, line := line }) henter
      unfold Exec.inScope
      rw [hb]
    | ifThen c s line =>
      refine start_congr ?_
      refine bind_congr_at (holds_bound ha b room c hm) fun v m₂ h₂ => ?_
      split
      · exact exec_bound ha b room s hs.2 ((layers_holds h₂).trans hm)
      · rfl
    | ifElse c s t line =>
      refine start_congr ?_
      refine bind_congr_at (holds_bound ha b room c hm) fun v m₂ h₂ => ?_
      split
      · exact exec_bound ha b room s hs.1.2 ((layers_holds h₂).trans hm)
      · exact exec_bound ha b room t hs.2.2 ((layers_holds h₂).trans hm)
    | loop c s line =>
      refine start_congr ?_
      -- the body is no declaration, so that every turn begins with the same layers
      refine repeatWhile_congr (P := fun m => m.chain.layers = ls) ?_ ?_ ?_ ?_ b.turns hm
      · exact fun m hm => holds_bound ha b room c hm
      · exact fun m v m' hm h => (layers_holds h).trans hm
      · exact fun m hm => exec_bound ha b room s hs.2 hm
      · exact fun m u m' hm h => (layers_exec_body hs h).trans hm
    | malformed kind line => rfl

/-- What `eval_bound` says of expressions holds of statements in order. -/
theorem execAll_bound (ha : access.Faithful) (b : Bounds) (room : Nat) (ss : List Stmt)
    (hss : Stmt.PlacedAll ss) {ls : Layers} {m : Machine} (hm : m.chain.layers = ls) :
    BoundStmt.execAll access b room (Stmt.boundAll ls ss) m = Stmt.execAll b room ss m := by
  cases ss with
  | nil => rfl
  | cons s ss =>
    refine bind_congr_at (exec_bound ha b room s hss.1 hm) fun _ m₁ h₁ => ?_
    refine execAll_bound ha b room ss hss.2 ?_
    rw [layers_exec hss.1 h₁, hm]

end

/-- Every variable is found at the address that the program text gives it. For every program that is
read from tokens and every global scope it starts in, going straight to the addresses has the same
outcome as searching the scopes: the same output, bindings and error. Moreover each search that takes
place ends at the address, since an alarm that is raised when one does not is never heard. -/
theorem lexical_scoping (b : Bounds) (nesting : Nat) (ts : List Token) (g : Scope) (line : Int)
    (output : String) :
    let program := (Program.ofTokens nesting ts).statements
    let start : Machine := ⟨.ofGlobal g, line, output⟩
    BoundStmt.execAll .direct b b.room (Stmt.boundAll [] program) start =
        Stmt.execAll b b.room program start ∧
      ∀ alarm, BoundStmt.execAll (.watched alarm) b b.room (Stmt.boundAll [] program) start =
        Stmt.execAll b b.room program start := by
  intro program start
  have hplaced : Stmt.PlacedAll program := placedAll_ofTokens nesting ts
  have hlayers : start.chain.layers = [] := rfl
  exact ⟨execAll_bound faithful_direct b b.room program hplaced hlayers,
    fun alarm => execAll_bound (faithful_watched alarm) b b.room program hplaced hlayers⟩

end LoxScript
