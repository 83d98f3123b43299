import Mathlib.Data.List.Forall2
import LoxScript.Proofs.Machine.Sequence
import LoxScript.Proofs.Scoping.ScopeList

/-!
# Assignments that stay in a block

An assignment can reach out of the block it stands in, as far as the global scope. It does not if the
block, or one that lies between, has declared the variable before: then the assignment ends at that
declaration's scope. A block shelters a variable if all of its assignments to the variable are of this
kind. Such a block leaves every binding of the variable outside alone, however it ends
(`bindings_exec_block`).

The invariant is about all the scopes that were opened since the block began. A flag for each of them
tells that it binds the variable already; a declaration that is completed sets the flag of the innermost
scope, and an assignment is harmless as soon as some flag is set.
-/

namespace LoxScript

/-- Whether the evaluation of an expression may assign to the variable `x`. -/
def Expr.assigns (x : String) : Expr → Bool
  | .assign name e _ => name.lexeme == x || e.assigns x
  | .unary _ e _ | .grouping e _ => e.assigns x
  | .binary l _ r _ | .logical l _ r _ => l.assigns x || r.assigns x
  | _ => false

namespace Stmt

/-- Whether a statement declares the variable `x`. -/
def declaresName (x : String) : Stmt → Bool
  | declare name _ _ => name.lexeme == x
  | _ => false

mutual

/-- Whether every assignment to `x` in a statement stands behind a declaration of `x` in the same
block or in one around it, within the statement. -/
def shelters (x : String) : Stmt → Bool
  | expression e _ | print e _ | declare _ (some e) _ => !e.assigns x
  | declare _ none _ | malformed _ _ => true
  | block body _ => sheltersAll x body
  | ifThen c s _ | loop c s _ => !c.assigns x && s.shelters x
  | ifElse c s t _ => !c.assigns x && s.shelters x && t.shelters x

/-- The same for the statements of a block: behind a declaration of `x` all assignments to it are
sheltered. -/
def sheltersAll (x : String) : List Stmt → Bool
  | [] => true
  | s :: ss => s.shelters x && (s.declaresName x || sheltersAll x ss)

end

end Stmt

/-! ## Flags -/

/-- Each scope whose flag is set binds `x`. -/
def Flagged (x : String) : List Bool → List Scope → Prop :=
  List.Forall₂ fun flag s => flag = true → s.binds x = true

/-- Where a flag is set, one of the scopes binds the variable. -/
theorem Flagged.exists_binds {x : String} {flags : List Bool} {own : List Scope}
    (hown : Flagged x flags own) (h : true ∈ flags) : ∃ s ∈ own, s.binds x = true := by
  induction hown with
  | nil => cases h
  | @cons flag s flags own hs _ ih =>
    rcases List.mem_cons.mp h with hflag | hrest
    · exact ⟨s, List.mem_cons_self, hs hflag.symm⟩
    · obtain ⟨s', hs', hbinds⟩ := ih hrest
      exact ⟨s', List.mem_cons_of_mem _ hs', hbinds⟩

namespace Chain

variable {x y : String} {v : Value}

/-- An assignment binds nothing that was not bound. -/
theorem flagged_assignIn {flags : List Bool} {own own' : List Scope}
    (hown : Flagged x flags own) (h : assignIn y v own = some own') : Flagged x flags own' := by
  induction hown generalizing own' with
  | nil => cases h
  | @cons flag s flags own hs hown ih =>
    unfold assignIn at h
    split at h
    · cases h
      refine .cons (fun hflag => ?_) hown
      rw [Scope.binds_define, hs hflag, Bool.or_true]
    · obtain ⟨ss, hss, rfl⟩ := Option.map_eq_some_iff.mp h
      exact .cons hs (ih hss)

/-- An assignment to another variable changes nothing about this one. -/
theorem find?_assignIn {ss ss' : List Scope} (hne : y ≠ x) (h : assignIn y v ss = some ss') :
    ss'.map (·.find? x) = ss.map (·.find? x) := by
  induction ss generalizing ss' with
  | nil => cases h
  | cons s ss ih =>
    unfold assignIn at h
    split at h
    · cases h
      simp [Scope.find?_define, hne]
    · obtain ⟨ss₁, h₁, rfl⟩ := Option.map_eq_some_iff.mp h
      simp [ih h₁]

/-- The scopes of a chain are some that were opened since a block began, each with its flag, and those
outside the block, which give `x` the values `outside`. -/
def Covers (x : String) (flags : List Bool) (outside : List (Option Value)) (c : Chain) : Prop :=
  ∃ own outer, c.scopes = own ++ outer ∧ Flagged x flags own ∧ outer.map (·.find? x) = outside

variable {flag : Bool} {flags : List Bool} {outside : List (Option Value)} {c c' : Chain}

/-- A scope that is opened does not bind the variable yet. -/
theorem Covers.enter (h : c.Covers x flags outside) : c.enter.Covers x (false :: flags) outside := by
  obtain ⟨own, outer, hc, hown, houter⟩ := h
  refine ⟨Scope.empty :: own, outer, ?_, .cons (by simp) hown, houter⟩
  rw [scopes_enter, hc, List.cons_append]

/-- The scope that is closed is not the global one, since that one lies outside the block. -/
theorem Covers.leave (hne : outside ≠ []) (h : c.Covers x (flag :: flags) outside) :
    c.leave.Covers x flags outside := by
  obtain ⟨own, outer, hc, hown, rfl⟩ := h
  cases hown with
  | @cons _ s _ own hs hown =>
    have hrest : own ++ outer ≠ [] := by
      intro hnil
      rw [(List.append_eq_nil_iff.mp hnil).2] at hne
      exact hne rfl
    exact ⟨own, outer, scopes_leave hc hrest, hown, rfl⟩

/-- A declaration of `x` sets the flag of the innermost scope, and any other one leaves it. -/
theorem Covers.define (h : c.Covers x (flag :: flags) outside) (y : String) (v : Value) :
    (c.define y v).Covers x ((y == x || flag) :: flags) outside := by
  obtain ⟨own, outer, hc, hown, houter⟩ := h
  cases hown with
  | @cons _ s _ own hs hown =>
    refine ⟨s.define y v :: own, outer, scopes_define hc, .cons (fun hflag => ?_) hown, houter⟩
    rw [Scope.binds_define]
    rcases Bool.or_eq_true_iff.mp hflag with hyx | hflag
    · rw [hyx, Bool.true_or]
    · rw [hs hflag, Bool.or_true]

/-- A flag that is set may be forgotten. -/
theorem Covers.forget (h : c.Covers x (true :: flags) outside) (flag : Bool) :
    c.Covers x (flag :: flags) outside := by
  obtain ⟨own, outer, hc, hown, houter⟩ := h
  cases hown with
  | cons hs hown => exact ⟨_, outer, hc, .cons (fun _ => hs rfl) hown, houter⟩

/-- An assignment to another variable, or below a flag that is set, stays in the block. -/
theorem Covers.assign? (h : c.Covers x flags outside) (hx : true ∈ flags ∨ y ≠ x)
    (hc' : c.assign? y v = some c') : c'.Covers x flags outside := by
  obtain ⟨own, outer, hc, hown, houter⟩ := h
  have hscopes := scopes_assign? c y v
  rw [hc', hc, assignIn_append, Option.map_some] at hscopes
  cases hin : assignIn y v own with
  | some own' =>
    rw [hin, Option.some.injEq] at hscopes
    exact ⟨own', outer, hscopes, flagged_assignIn hown hin, houter⟩
  | none =>
    rw [hin] at hscopes
    obtain ⟨outer', houter', heq⟩ := Option.map_eq_some_iff.mp hscopes.symm
    have hne : y ≠ x := by
      rcases hx with hset | hne
      · rintro rfl
        obtain ⟨s, hs, hbinds⟩ := hown.exists_binds hset
        rw [binds_of_assignIn_eq_none hin s hs] at hbinds
        cases hbinds
      · exact hne
    refine ⟨own, outer', heq.symm, hown, ?_⟩
    rw [find?_assignIn hne houter', houter]

end Chain

/-! ## What evaluation and execution leave -/

section

variable {x : String} {flag : Bool} {flags : List Bool} {outside : List (Option Value)}

/-- An expression that assigns to the variable needs a scope that binds it. -/
theorem covers_eval (trap : String → Bool) (room : Nat) (e : Expr)
    (he : true ∈ flags ∨ e.assigns x = false) :
    Frames (Keeps (Chain.Covers x flags outside)) (e.eval trap room) := by
  induction room generalizing e with
  | zero =>
    rw [eval_zero]
    exact .throw _
  | succ room ih =>
    cases e with
    | literal v _ => exact .pure v
    | grouping e _ => exact ih e he
    | read name _ =>
      intro c hc
      show Chain.Covers x flags outside (endState (Eval.read trap name c))
      unfold Eval.read
      split
      · exact hc
      · split <;> exact hc
    | assign name e _ =>
      simp only [Expr.assigns, Bool.or_eq_false_iff] at he
      refine (ih e (he.imp_right And.right)).bind fun v => .bind (fun c hc => ?_) fun _ => .pure v
      unfold Eval.assign
      split
      · next hc' => exact hc.assign? (he.imp_right fun h => by simpa using h.1) hc'
      · exact hc
    | logical l op r _ =>
      simp only [Expr.assigns, Bool.or_eq_false_iff] at he
      refine (ih l (he.imp_right And.left)).bind fun v => ?_
      split
      · exact .pure v
      · exact ih r (he.imp_right And.right)
    | unary op e _ => exact (ih e he).bind fun v => frames_ofExcept _
    | binary l op r _ =>
      simp only [Expr.assigns, Bool.or_eq_false_iff] at he
      exact (ih l (he.imp_right And.left)).bind fun v =>
        (ih r (he.imp_right And.right)).bind fun w => frames_ofExcept _
    | malformed _ _ => exact .throw _

/-- The invariant of a machine. -/
def Machine.Covers (x : String) (flags : List Bool) (outside : List (Option Value)) (m : Machine) :
    Prop :=
  m.chain.Covers x flags outside

theorem covers_value (b : Bounds) (room : Nat) (e : Expr)
    (he : true ∈ flags ∨ e.assigns x = false) :
    Frames (Keeps (Machine.Covers x flags outside)) (Exec.value b room e) := by
  intro m hm
  rw [endState_value]
  exact covers_eval b.trap room e he m.chain hm

theorem covers_holds (b : Bounds) (room : Nat) (e : Expr)
    (he : true ∈ flags ∨ e.assigns x = false) :
    Frames (Keeps (Machine.Covers x flags outside)) (Exec.holds b room e) :=
  (covers_value b room e he).bind fun v => .pure v.truthy

theorem covers_start (line : Int) :
    Frames (Keeps (Machine.Covers x flags outside)) (Exec.start line) :=
  fun _ hm => hm

theorem covers_print (v : Value) : Frames (Keeps (Machine.Covers x flags outside)) (Exec.print v) :=
  fun _ hm => hm

/-- What is executed in a scope of its own leaves the flags of the others. -/
theorem covers_inScope (hne : outside ≠ []) {body : Exec Unit}
    (hb : Frames (Keeps (Machine.Covers x (false :: flags) outside)) body) :
    Frames (Keeps (Machine.Covers x flags outside)) (Exec.inScope body) := by
  intro m hm
  have hbody := hb { m with chain := m.chain.enter } (Chain.Covers.enter hm)
  rw [endState_inScope]
  exact Chain.Covers.leave hne hbody

theorem covers_define (name : String) (v : Value) :
    Frames (Keeps (Machine.Covers x (flag :: flags) outside)) (Exec.define name v) := by
  intro m hm
  have hdefine := Chain.Covers.define hm name v
  show Chain.Covers x (flag :: flags) outside (m.chain.define name v)
  cases hname : name == x with
  | false => rwa [hname] at hdefine
  | true =>
    rw [hname] at hdefine
    exact hdefine.forget flag

/-- Behind a declaration of `x` the innermost scope binds it. -/
theorem covers_exec_declare {b : Bounds} {room : Nat} {s : Stmt} {m m' : Machine} {u : Unit}
    (hs : s.declaresName x = true) (he : true ∈ flag :: flags ∨ s.shelters x = true)
    (hm : m.Covers x (flag :: flags) outside) (h : s.exec b room m = .ok u m') :
    m'.Covers x (true :: flags) outside := by
  cases s with
  | declare name first line =>
    have hname : (name.lexeme == x) = true := hs
    have hdefine : ∀ m₁ : Machine, m₁.Covers x (flag :: flags) outside → ∀ v : Value,
        Chain.Covers x (true :: flags) outside (m₁.chain.define name.lexeme v) := by
      intro m₁ hm₁ v
      have hcovers := Chain.Covers.define hm₁ name.lexeme v
      rwa [hname, Bool.true_or] at hcovers
    cases room with
    | zero => cases h
    | succ room =>
      cases first with
      | none =>
        cases h
        exact hdefine { m with line := line } hm .nil
      | some e =>
        obtain ⟨_, m₁, h₁, h⟩ := bind_eq_ok.mp h
        cases h₁
        obtain ⟨v, m₂, h₂, h⟩ := bind_eq_ok.mp h
        have he' : true ∈ flag :: flags ∨ e.assigns x = false := by
          simpa [Stmt.shelters] using he
        have hm₂ : m₂.Covers x (flag :: flags) outside := (covers_value b room e he').of_ok h₂ hm
        cases h
        exact hdefine m₂ hm₂ v
  | _ => cases hs

mutual

/-- The invariant is kept by every statement, if a flag is set or the statement shelters `x`. -/
theorem covers_exec (hne : outside ≠ []) (b : Bounds) (room : Nat) (s : Stmt) (flag : Bool)
    (flags : List Bool) (hs : true ∈ flag :: flags ∨ s.shelters x = true) :
    Frames (Keeps (Machine.Covers x (flag :: flags) outside)) (s.exec b room) := by
  cases room with
  | zero =>
    rw [exec_zero]
    exact .throw _
  | succ room =>
    cases s with
    | expression e line =>
      have he : true ∈ flag :: flags ∨ e.assigns x = false := by simpa [Stmt.shelters] using hs
      exact (covers_start line).bind fun _ => (covers_value b room e he).bind fun _ => .pure _
    | print e line =>
      have he : true ∈ flag :: flags ∨ e.assigns x = false := by simpa [Stmt.shelters] using hs
      exact (covers_start line).bind fun _ => (covers_value b room e he).bind fun v => covers_print v
    | declare name first line =>
      cases first with
      | none => exact (covers_start line).bind fun _ => covers_define _ _
      | some e =>
        have he : true ∈ flag :: flags ∨ e.assigns x = false := by simpa [Stmt.shelters] using hs
        exact (covers_start line).bind fun _ =>
          (covers_value b room e he).bind fun v => covers_define _ v
    | block body line =>
      -- the scope of the block is new, so that it does not bind the variable yet
      have hbody : true ∈ false :: flag :: flags ∨ Stmt.sheltersAll x body = true :=
        hs.imp_left (List.mem_cons_of_mem _)
      exact (covers_start line).bind fun _ =>
        covers_inScope hne (covers_execAll hne b room body false (flag :: flags) hbody)
    | ifThen c s line =>
      simp only [Stmt.shelters, Bool.and_eq_true, Bool.not_eq_true'] at hs
      refine (covers_start line).bind fun _ =>
        (covers_holds b room c (hs.imp_right And.left)).bind fun _ => ?_
      split
      · exact covers_exec hne b room s flag flags (hs.imp_right And.right)
      · exact .pure _
    | ifElse c s t line =>
      simp only [Stmt.shelters, Bool.and_eq_true, Bool.not_eq_true'] at hs
      refine (covers_start line).bind fun _ =>
        (covers_holds b room c (hs.imp_right fun h => h.1.1)).bind fun _ => ?_
      split
      · exact covers_exec hne b room s flag flags (hs.imp_right fun h => h.1.2)
      · exact covers_exec hne b room t flag flags (hs.imp_right And.right)
    | loop c s line =>
      simp only [Stmt.shelters, Bool.and_eq_true, Bool.not_eq_true'] at hs
      exact (covers_start line).bind fun _ =>
        frames_repeatWhile (covers_holds b room c (hs.imp_right And.left))
          (covers_exec hne b room s flag flags (hs.imp_right And.right)) b.turns
    | malformed kind line => exact (covers_start line).bind fun _ => .throw _

/-- Statements in a row shelter the variable one after another. -/
theorem covers_execAll (hne : outside ≠ []) (b : Bounds) (room : Nat) (ss : List Stmt) (flag : Bool)
    (flags : List Bool) (hss : true ∈ flag :: flags ∨ Stmt.sheltersAll x ss = true) :
    Frames (Keeps (Machine.Covers x (flag :: flags) outside)) (Stmt.execAll b room ss) := by
  cases ss with
  | nil => exact .pure _
  | cons s ss =>
    simp only [Stmt.sheltersAll, Bool.and_eq_true, Bool.or_eq_true_iff] at hss
    have hfirst := covers_exec hne b room s flag flags (hss.imp_right And.left)
    by_cases hrest : true ∈ flag :: flags ∨ Stmt.sheltersAll x ss = true
    · exact hfirst.bind fun _ => covers_execAll hne b room ss flag flags hrest
    · -- the first statement declares the variable, so that the flag is set behind it
      obtain ⟨hunset, hsheltered⟩ := not_or.mp hrest
      obtain ⟨hs, hdeclares⟩ := hss.resolve_left hunset
      have hdeclares := hdeclares.resolve_right hsheltered
      intro m hm
      cases h : s.exec b room m with
      | ok u m₁ =>
        have hm₁ := covers_exec_declare hdeclares (.inr hs) hm h
        have hend := covers_execAll hne b room ss true flags (.inl List.mem_cons_self) m₁ hm₁
        rw [Stmt.execAll_cons, bind_of_ok h]
        exact Chain.Covers.forget hend flag
      | error e m₁ =>
        rw [Stmt.execAll_cons, bind_of_error h]
        exact hfirst.of_error h hm

end

/-- If a block shelters a variable, all bindings of the variable outside keep their values, and none
is added or removed, whether or not the execution of the block comes to its end. -/
theorem bindings_exec_block (b : Bounds) (room : Nat) (body : List Stmt) (line : Int)
    (hbody : Stmt.sheltersAll x body = true) (m : Machine) :
    (endState ((Stmt.block body line).exec b room m)).chain.scopes.map (·.find? x) =
      m.chain.scopes.map (·.find? x) := by
  have hne : m.chain.scopes.map (·.find? x) ≠ [] := by simp [Chain.scopes]
  have hm : m.Covers x [] (m.chain.scopes.map (·.find? x)) :=
    ⟨[], m.chain.scopes, rfl, .nil, rfl⟩
  have hblock : Frames (Keeps (Machine.Covers x [] (m.chain.scopes.map (·.find? x))))
      ((Stmt.block body line).exec b room) := by
    cases room with
    | zero => exact .throw _
    | succ room =>
      exact (covers_start line).bind fun _ =>
        covers_inScope hne (covers_execAll hne b room body false [] (.inr hbody))
  obtain ⟨own, outer, hscopes, hown, houter⟩ := hblock m hm
  cases hown
  rw [hscopes]
  exact houter

end

end LoxScript
