import Mathlib.Order.Defs.Unbundled
import LoxScript.Proofs.Grammar.Placement
import LoxScript.Proofs.Machine.Sequence
import LoxScript.Proofs.Scoping.Address

/-!
# The names in the scopes

Which names the scopes of a chain bind changes only by declarations, and a declaration concerns the
innermost scope. So evaluation leaves all names alone (`frames_eval`), and so does a statement that
is no declaration, whatever happens inside its blocks and however it ends (`frames_exec`).
-/

namespace LoxScript

theorem Scope.binds_iff (s : Scope) (x : String) : s.binds x = true ↔ x ∈ s.names := by
  obtain ⟨bs⟩ := s
  simp only [Scope.binds, Scope.find?, Scope.names]
  induction bs with
  | nil => simp [Scope.get?]
  | cons b bs ih =>
    obtain ⟨y, v⟩ := b
    by_cases hy : y = x
    · simp [Scope.get?, hy]
    · have hx : x ≠ y := fun h => hy h.symm
      simp [Scope.get?, hy, hx, ih]

/-- Giving a bound name another value changes no name. -/
theorem Scope.names_define_of_binds {s : Scope} {x : String} (h : s.binds x = true) (v : Value) :
    (s.define x v).names = s.names := by
  rw [Scope.names_define, if_pos ((s.binds_iff x).mp h)]

namespace Chain

/-- The names in each scope, the innermost scope first. -/
def names (c : Chain) : List (List String) := c.scopes.map Scope.names

/-- The names in each scope but the global one. -/
def layers (c : Chain) : Layers := c.inner.map Scope.names

theorem names_eq (c : Chain) : c.names = c.layers ++ [c.global.names] := by
  simp [names, scopes, layers]

theorem layers_eq (c : Chain) : c.layers = c.names.dropLast := by
  simp [names_eq]

/-- Closing a scope that is not the global one removes its names. -/
theorem names_leave {c : Chain} {l ls : List String} {lss : List (List String)}
    (h : c.names = l :: ls :: lss) : c.leave.names = ls :: lss := by
  obtain ⟨inner, g⟩ := c
  cases inner with
  | nil => simp [names, scopes] at h
  | cons s ss =>
    simp only [names, scopes, List.cons_append, List.map_cons, List.cons.injEq] at h
    exact h.2

theorem names_ne_nil (c : Chain) : c.names ≠ [] := by
  simp [names_eq]

/-- A declaration adds its name to the innermost scope, if the scope does not have it. -/
theorem names_define (c : Chain) (x : String) (v : Value) :
    (c.define x v).names = Layers.declare x c.names := by
  obtain ⟨inner, g⟩ := c
  cases inner with
  | nil => simp [define, names, scopes, Layers.declare, Scope.names_define]
  | cons s ss => simp [define, names, scopes, Layers.declare, Scope.names_define]

/-- A declaration concerns the innermost scope only. -/
theorem tail_names_define (c : Chain) (x : String) (v : Value) :
    (c.define x v).names.tail = c.names.tail := by
  rw [names_define]
  cases c.names <;> rfl

theorem names_assignIn {x : String} {v : Value} {ss ss' : List Scope}
    (h : assignIn x v ss = some ss') : ss'.map Scope.names = ss.map Scope.names := by
  induction ss generalizing ss' with
  | nil => simp [assignIn] at h
  | cons s ss ih =>
    unfold assignIn at h
    split at h
    · next hs =>
      cases h
      simp [Scope.names_define_of_binds hs]
    · obtain ⟨ss₁, h₁, rfl⟩ := Option.map_eq_some_iff.mp h
      simp [ih h₁]

theorem names_assign? {c c' : Chain} {x : String} {v : Value} (h : c.assign? x v = some c') :
    c'.names = c.names := by
  unfold assign? at h
  split at h
  · next ss hss =>
    cases h
    simp [names, scopes, names_assignIn hss]
  · split at h
    · next hg =>
      cases h
      simp [names, scopes, Scope.names_define_of_binds hg]
    · cases h

/-- The two chains have the same names in the same scopes, in the same order. -/
def SameNames (c c' : Chain) : Prop := c'.names = c.names

instance : IsPreorder Chain SameNames where
  refl _ := rfl
  trans _ _ _ h₁ h₂ := h₂.trans h₁

end Chain

theorem frames_eval (trap : String → Bool) (room : Nat) (e : Expr) :
    Frames Chain.SameNames (e.eval trap room) := by
  induction room generalizing e with
  | zero =>
    rw [eval_zero]
    exact .throw _
  | succ room ih =>
    cases e with
    | literal v _ => exact .pure v
    | grouping e _ => exact ih e
    | read name _ =>
      intro c
      show Chain.SameNames c (endState (Eval.read trap name c))
      unfold Eval.read
      split
      · rfl
      · split <;> rfl
    | assign name e _ =>
      refine (ih e).bind fun v => .bind (fun c => ?_) fun _ => .pure v
      unfold Eval.assign
      split
      · next h => exact Chain.names_assign? h
      · rfl
    | logical l op r _ =>
      refine (ih l).bind fun v => ?_
      split
      · exact .pure v
      · exact ih r
    | unary op e _ => exact (ih e).bind fun v => frames_ofExcept _
    | binary l op r _ => exact (ih l).bind fun v => (ih r).bind fun w => frames_ofExcept _
    | malformed _ _ => exact .throw _

/-! ## Execution -/

namespace Machine

/-- The scopes of the two machines have the same names. -/
def SameNames (m m' : Machine) : Prop := m'.chain.names = m.chain.names

instance : IsPreorder Machine SameNames where
  refl _ := rfl
  trans _ _ _ h₁ h₂ := h₂.trans h₁

/-- The scopes around the innermost one have the same names in the two machines. -/
def SameOuterNames (m m' : Machine) : Prop := m'.chain.names.tail = m.chain.names.tail

instance : IsPreorder Machine SameOuterNames where
  refl _ := rfl
  trans _ _ _ h₁ h₂ := h₂.trans h₁

end Machine

open Machine (SameNames SameOuterNames)

theorem frames_start (line : Int) : Frames SameNames (Exec.start line) := fun _ => rfl

theorem frames_value (b : Bounds) (room : Nat) (e : Expr) :
    Frames SameNames (Exec.value b room e) := by
  intro m
  rw [endState_value]
  exact frames_eval b.trap room e m.chain

theorem frames_holds (b : Bounds) (room : Nat) (e : Expr) :
    Frames SameNames (Exec.holds b room e) :=
  (frames_value b room e).bind fun _ => .pure _

/-- What happens in a scope of its own leaves the names in all other scopes alone. -/
theorem frames_inScope {body : Exec Unit} (h : Frames SameOuterNames body) :
    Frames SameNames (Exec.inScope body) := by
  intro m
  have hb := h { m with chain := m.chain.enter }
  obtain ⟨l, lss, hm⟩ := List.exists_cons_of_ne_nil m.chain.names_ne_nil
  have hleave : ∀ m' : Machine, m'.chain.names.tail = m.chain.names →
      m'.chain.leave.names = m.chain.names := by
    intro m' h'
    obtain ⟨l', lss', hm'⟩ := List.exists_cons_of_ne_nil m'.chain.names_ne_nil
    rw [hm', List.tail_cons] at h'
    subst h'
    rw [hm]
    exact Chain.names_leave (hm ▸ hm')
  rw [endState_inScope]
  exact hleave _ hb

theorem frames_outer {p : Exec Unit} (h : Frames SameNames p) : Frames SameOuterNames p :=
  fun m => congrArg List.tail (h m)

/-- A declaration leaves all names outside the innermost scope alone. -/
theorem frames_exec_declare (b : Bounds) (room : Nat) (name : Token) (first : Option Expr)
    (line : Int) : Frames SameOuterNames ((Stmt.declare name first line).exec b room) := by
  have hd : ∀ v, Frames SameOuterNames (Exec.define name.lexeme v) :=
    fun v m => Chain.tail_names_define m.chain name.lexeme v
  have hs : Frames SameOuterNames (Exec.start line) := fun _ => rfl
  cases room with
  | zero => exact .throw _
  | succ room =>
    cases first with
    | none => exact hs.bind fun _ => hd _
    | some e =>
      have hv : Frames SameOuterNames (Exec.value b room e) :=
        fun m => congrArg List.tail (frames_value b room e m)
      exact hs.bind fun _ => hv.bind fun v => hd v

mutual

/-- A statement that is no declaration leaves the names in all scopes alone. -/
theorem frames_exec (b : Bounds) (room : Nat) (s : Stmt) (hs : s.PlacedBody) :
    Frames SameNames (s.exec b room) := by
  cases room with
  | zero =>
    rw [exec_zero]
    exact .throw _
  | succ room =>
    cases s with
    | expression e line =>
      exact (frames_start line).bind fun _ => (frames_value b room e).bind fun _ => .pure _
    | print e line =>
      exact (frames_start line).bind fun _ => (frames_value b room e).bind fun v => fun _ => rfl
    | declare name first line => exact absurd hs.1 (by simp [Stmt.declares])
    | block body line =>
      exact (frames_start line).bind fun _ => frames_inScope (frames_execAll b room body hs.2)
    | ifThen c s line =>
      refine (frames_start line).bind fun _ => (frames_holds b room c).bind fun _ => ?_
      split
      · exact frames_exec b room s hs.2
      · exact .pure _
    | ifElse c s t line =>
      refine (frames_start line).bind fun _ => (frames_holds b room c).bind fun _ => ?_
      split
      · exact frames_exec b room s hs.2.1
      · exact frames_exec b room t hs.2.2
    | loop c s line =>
      exact (frames_start line).bind fun _ =>
        frames_repeatWhile (frames_holds b room c) (frames_exec b room s hs.2) b.turns
    | malformed kind line => exact (frames_start line).bind fun _ => .throw _

/-- Statements leave the names outside the innermost scope alone. -/
theorem frames_execAll (b : Bounds) (room : Nat) (ss : List Stmt) (hss : Stmt.PlacedAll ss) :
    Frames SameOuterNames (Stmt.execAll b room ss) := by
  cases ss with
  | nil => exact .pure _
  | cons s ss =>
    have hrest := frames_execAll b room ss hss.2
    have hfirst : Frames SameOuterNames (s.exec b room) := by
      cases hd : s.declares with
      | false => exact frames_outer (frames_exec b room s ⟨hd, hss.1⟩)
      | true =>
        cases s with
        | declare name first line => exact frames_exec_declare b room name first line
        | _ => exact absurd hd (by simp [Stmt.declares])
    exact hfirst.bind fun _ => hrest

end

/-! ## What a statement adds -/

/-- A declaration adds its name if it is carried out, and no name if it breaks off. -/
theorem names_exec_declare (b : Bounds) (room : Nat) (name : Token) (first : Option Expr)
    (line : Int) (m : Machine) :
    match (Stmt.declare name first line).exec b room m with
    | .ok _ m' => m'.chain.names = Layers.declare name.lexeme m.chain.names
    | .error _ m' => m'.chain.names = m.chain.names := by
  cases room with
  | zero => rfl
  | succ room =>
    cases first with
    | none => exact Chain.names_define m.chain name.lexeme .nil
    | some e =>
      have hstart : Exec.start line m = .ok () { m with line := line } := rfl
      have hvalue := frames_value b room e { m with line := line }
      have hexec : (Stmt.declare name (some e) line).exec b (room + 1) m =
          (do
            let v ← Exec.value b room e
            Exec.define name.lexeme v) { m with line := line } := bind_of_ok hstart
      rw [hexec]
      cases hv : Exec.value b room e { m with line := line } with
      | ok v m₁ =>
        rw [hv] at hvalue
        rw [bind_of_ok hv]
        show (m₁.chain.define name.lexeme v).names = _
        rw [Chain.names_define]
        exact congrArg (Layers.declare name.lexeme) hvalue
      | error h m₁ =>
        rw [hv] at hvalue
        rw [bind_of_error hv]
        exact hvalue

/-- What a statement does to the names in the scopes. -/
theorem names_exec (b : Bounds) (room : Nat) {s : Stmt} (hs : s.Placed) (m : Machine) :
    match s.exec b room m with
    | .ok _ m' => m'.chain.names = Layers.behind m.chain.names s
    | .error _ m' => m'.chain.names = m.chain.names := by
  cases hd : s.declares with
  | true =>
    cases s with
    | declare name first line => exact names_exec_declare b room name first line m
    | _ => cases hd
  | false =>
    have hsame := frames_exec b room s ⟨hd, hs⟩ m
    have hbehind : Layers.behind m.chain.names s = m.chain.names := by
      cases s with
      | declare name first line => cases hd
      | _ => rfl
    rw [hbehind]
    cases h : s.exec b room m with
    | ok u m' =>
      rw [h] at hsame
      exact hsame
    | error e m' =>
      rw [h] at hsame
      exact hsame

/-! ## Layers -/

/-- The layers lack the global scope only. -/
theorem Layers.dropLast_behind (ls : Layers) (s : Stmt) :
    (Layers.behind ls s).dropLast = Layers.behind ls.dropLast s := by
  cases s with
  | declare name first line =>
    cases ls with
    | nil => rfl
    | cons l ls => cases ls <;> rfl
  | _ => rfl

theorem Chain.layers_congr {c c' : Chain} (h : c'.names = c.names) : c'.layers = c.layers := by
  rw [layers_eq, layers_eq, h]

/-- Evaluation leaves the layers alone. -/
theorem layers_eval {trap : String → Bool} {room : Nat} {e : Expr} {c c' : Chain} {v : Value}
    (h : e.eval trap room c = .ok v c') : c'.layers = c.layers :=
  Chain.layers_congr ((frames_eval trap room e).of_ok h)

/-- So do the conditions of statements. -/
theorem layers_holds {b : Bounds} {room : Nat} {e : Expr} {m m' : Machine} {v : Bool}
    (h : Exec.holds b room e m = .ok v m') : m'.chain.layers = m.chain.layers :=
  Chain.layers_congr ((frames_holds b room e).of_ok h)

/-- And so does a statement that can be the body of a loop. -/
theorem layers_exec_body {b : Bounds} {room : Nat} {s : Stmt} (hs : s.PlacedBody) {m m' : Machine}
    {u : Unit} (h : s.exec b room m = .ok u m') : m'.chain.layers = m.chain.layers :=
  Chain.layers_congr ((frames_exec b room s hs).of_ok h)

/-- Where a statement ends without an error, the scopes have the names that can be read off the
text. -/
theorem layers_exec {b : Bounds} {room : Nat} {s : Stmt} (hs : s.Placed) {m m' : Machine} {u : Unit}
    (h : s.exec b room m = .ok u m') : m'.chain.layers = m.chain.layers.behind s := by
  have hnames := names_exec b room hs m
  rw [h] at hnames
  dsimp only at hnames
  rw [Chain.layers_eq, hnames, Layers.dropLast_behind, ← Chain.layers_eq]

end LoxScript
