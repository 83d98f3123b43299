import Mathlib.Order.MinMax
import LoxScript.Grammar.Display
import LoxScript.Proofs.Grammar.Acceptance

/-!
# How deep the trees are

The depth of a tree is its number of levels; a tree fits into a room if that is at most the room. A
chain of operators is read by a loop, and the nesting of constructs in the source does not bound the
depth of its tree. What does bound it is the number of tokens: each level is paid for by a token of
its own (`deepest_ofTokens`), a "for" loop by its word, its parentheses and its semicolons.
-/

namespace LoxScript

namespace Expr

/-- The number of levels of an expression. -/
def depth : Expr → Nat
  | literal _ _ | read _ _ | malformed _ _ => 1
  | unary _ e _ | grouping e _ | assign _ e _ => e.depth + 1
  | binary l _ r _ | logical l _ r _ => max l.depth r.depth + 1

/-- An expression fits if its depth is within the room. -/
theorem fits_iff {room : Nat} {e : Expr} : e.fits room = true ↔ e.depth ≤ room := by
  induction e generalizing room with
  | literal | read | malformed => cases room <;> simp [fits, depth]
  | unary _ _ _ ih | grouping _ _ ih | assign _ _ _ ih => cases room <;> simp [fits, depth, ih]
  | binary _ _ _ _ ihl ihr | logical _ _ _ _ ihl ihr =>
    cases room <;> simp [fits, depth, ihl, ihr]

/-- An operation is one level deeper than its operands. -/
theorem depth_join (tier : Tier) (l : Expr) (op : Token) (r : Expr) :
    (tier.join l op r).depth = max l.depth r.depth + 1 := by
  unfold Tier.join
  split <;> rfl

theorem depth_ofToken? {t : Token} {e : Expr} (h : ofToken? t = some e) : e.depth = 1 := by
  unfold ofToken? at h
  split at h <;> cases h <;> rfl

end Expr

namespace Stmt

mutual

/-- The number of levels of a statement. -/
def depth : Stmt → Nat
  | expression e _ | print e _ | declare _ (some e) _ => e.depth + 1
  | declare _ none _ | malformed _ _ => 1
  | block body _ => deepest body + 1
  | ifThen c s _ | loop c s _ => max c.depth s.depth + 1
  | ifElse c s t _ => max c.depth (max s.depth t.depth) + 1

/-- The greatest number of levels among statements. -/
def deepest : List Stmt → Nat
  | [] => 0
  | s :: ss => max s.depth (deepest ss)

end

mutual

/-- A statement fits if its depth is within the room. -/
theorem fits_iff {room : Nat} {s : Stmt} : s.fits room = true ↔ s.depth ≤ room := by
  cases room with
  | zero => cases s with
    | declare _ first => cases first <;> simp [fits, depth]
    | _ => simp [fits, depth]
  | succ room =>
    cases s with
    | expression | print => simp [fits, depth, Expr.fits_iff]
    | declare _ first => cases first <;> simp [fits, depth, Expr.fits_iff]
    | block => simp [fits, depth, allFit_iff]
    | ifThen c s | loop c s => simp [fits, depth, Expr.fits_iff, fits_iff (s := s)]
    | ifElse c s t =>
      simp [fits, depth, Expr.fits_iff, fits_iff (s := s), fits_iff (s := t), and_assoc]
    | malformed => simp [fits, depth]

/-- Statements fit if the deepest one does. -/
theorem allFit_iff {room : Nat} {ss : List Stmt} :
    allFit room ss = true ↔ deepest ss ≤ room := by
  cases ss with
  | nil => simp [allFit, deepest]
  | cons s ss => simp [allFit, deepest, fits_iff (s := s), allFit_iff]

end

end Stmt

/-- The number of levels of an optional part, given what a missing one counts. -/
def depthOr {α : Type} (missing : Nat) (depth : α → Nat) : Option α → Nat
  | none => missing
  | some a => depth a

/-- What the clauses of a "for" loop count, with the semicolon of the first. -/
def ForClauses.depth (c : ForClauses) : Nat :=
  depthOr 1 Stmt.depth c.first + depthOr 0 Expr.depth c.condition + depthOr 0 Expr.depth c.step

/-- The nodes that are put around the clauses of a "for" loop and its body are no more levels than the
loop has words and signs of its own. -/
theorem Stmt.depth_forLoop (line : Int) (c : ForClauses) (body : Stmt) :
    (Stmt.forLoop line c body).depth ≤ 4 + c.depth + body.depth := by
  obtain ⟨first, condition, step⟩ := c
  cases first <;> cases condition <;> cases step <;>
    simp only [forLoop, ForClauses.depth, depthOr, depth, deepest, Expr.depth, Option.getD_some,
      Option.getD_none] <;> omega

namespace Parse

variable {α β : Type}

/-- From this state, the size of a result is paid for: by the amount `k`, and by one more for each
token that is passed. -/
def PaidAt (k : Nat) (p : Parse α) (size : α → Nat) (s : ParseState) : Prop :=
  ∀ a s₁, p s = .ok a s₁ → size a + s₁.cursor.rest.length ≤ k + s.cursor.rest.length

/-- The size of every result is paid for. -/
def Paid (k : Nat) (p : Parse α) (size : α → Nat) : Prop := ∀ s, PaidAt k p size s

namespace Paid

variable {k : Nat} {p : Parse α} {f : α → Parse β} {size : α → Nat} {size' : β → Nat}

theorem pure {a : α} (h : size a ≤ k) : Paid k (pure a) size := by
  intro s a' s₁ h'
  cases h'
  omega

theorem fail (cause : SyntaxCause) : Paid k (fail cause : Parse α) size := by
  intro s a s₁ h
  cases h

/-- What a first result counts is at hand for the step behind it. -/
theorem bind (hp : Paid k p size) (hf : ∀ a, Paid (size a) (f a) size') :
    Paid k (p >>= f) size' := by
  intro s b s₂ h
  obtain ⟨a, s₁, h₁, h₂⟩ := bind_eq_ok.mp h
  have hfirst := hp s a s₁ h₁
  have hsecond := hf a s₁ b s₂ h₂
  omega

/-- What was at hand before stays at hand. -/
theorem also (j : Nat) (hp : Paid k p size) : Paid (j + k) p fun a => j + size a := by
  intro s a s₁ h
  have hpaid := hp s a s₁ h
  show j + size a + s₁.cursor.rest.length ≤ _
  omega

theorem mono {k' : Nat} (hp : Paid k p size) (h : k ≤ k') : Paid k' p size := by
  intro s a s₁ h'
  have hpaid := hp s a s₁ h'
  omega

theorem note (e : SyntaxError) : Paid k (note e) fun _ => k := by
  intro s a s₁ h
  cases h
  exact Nat.le_refl _

theorem remaining : Paid k remaining fun _ => k := by
  intro s a s₁ h
  cases h
  exact Nat.le_refl _

theorem accept (kinds : List TokenKind) :
    Paid k (accept kinds) fun o => depthOr k (fun _ => k + 1) o := by
  intro s o s₁ h
  unfold Parse.accept at h
  cases hr : s.cursor.rest with
  | nil =>
    rw [hr] at h
    cases h
    simp [depthOr, hr]
  | cons t ts =>
    rw [hr] at h
    dsimp only at h
    split at h <;> cases h
    · rw [ParseState.rest_advance, hr]
      simp [depthOr]
      omega
    · simp [depthOr, hr]

theorem expect (kind : TokenKind) (cause : SyntaxCause) :
    Paid k (expect kind cause) fun _ => k + 1 := by
  intro s t s₁ h
  unfold Parse.expect at h
  cases hr : s.cursor.rest with
  | nil =>
    rw [hr] at h
    cases h
  | cons t ts =>
    rw [hr] at h
    dsimp only at h
    split at h <;> cases h
    rw [ParseState.rest_advance, hr]
    simp
    omega

/-- The token to come is looked at, and perhaps it is there. -/
theorem looking {f : Option Token → Parse α} (hnone : Paid k (f none) size)
    (hsome : ∀ t s, s.cursor.rest ≠ [] → PaidAt k (f (some t)) size s) :
    Paid k (look >>= f) size := by
  intro s a s₁ h
  have hlook : (look >>= f) s = f s.cursor.rest.head? s := rfl
  rw [hlook] at h
  cases hr : s.cursor.rest.head? with
  | none => exact hnone s a s₁ (hr ▸ h)
  | some t =>
    have hne : s.cursor.rest ≠ [] := fun hnil => by simp [hnil] at hr
    exact hsome t s hne a s₁ (hr ▸ h)

/-- A token that is there is passed. -/
theorem skipping {f : Unit → Parse α} {s : ParseState} (h : Paid (k + 1) (f ()) size)
    (hr : s.cursor.rest ≠ []) : PaidAt k (skip >>= f) size s := by
  intro a s₁ h'
  have hpaid := h s.advance a s₁ h'
  have hpos := List.length_pos_iff.mpr hr
  rw [ParseState.rest_advance, List.length_tail] at hpaid
  omega

end Paid

/-! ## Expressions -/

section

variable {operand inner nested primary target value : Parse Expr}

/-- Parentheses pay for the level that they add. -/
theorem paid_primaryOf (hi : Paid 0 inner Expr.depth) : Paid 0 (primaryOf inner) Expr.depth := by
  rw [primaryOf_eq]
  refine .looking (.fail _) fun t s hs => ?_
  dsimp only
  split
  · next e he => exact Paid.skipping (.pure (Nat.le_of_eq (Expr.depth_ofToken? he))) hs
  · split
    · refine Paid.skipping ((hi.also 1).bind fun e => (Paid.expect _ _).bind fun _ => ?_) hs
      exact .pure (by simp only [Expr.depth]; omega)
    · exact Paid.fail _ s

/-- A prefix operator pays for the level that it adds. -/
theorem paid_unaryOf (hn : Paid 0 nested Expr.depth) (hp : Paid 0 primary Expr.depth) :
    Paid 0 (unaryOf nested primary) Expr.depth := by
  refine (Paid.accept _).bind fun o => ?_
  cases o with
  | none => exact hp
  | some op =>
    exact (hn.also 1).bind fun e => .pure (by simp only [Expr.depth]; omega)

/-- Each operator that is folded pays for the level it makes. -/
theorem paid_climb (ho : Paid 0 operand Expr.depth) (fuel least : Nat) {left : Expr} {k : Nat}
    (hl : left.depth ≤ k) : Paid k (climb operand fuel least left) Expr.depth := by
  induction fuel generalizing least left k with
  | zero => exact .pure hl
  | succ fuel ih =>
    rw [climb_succ]
    refine .looking (.pure hl) fun t s hs => ?_
    dsimp only
    split
    · exact Paid.pure hl s
    · split
      · exact Paid.pure hl s
      · refine Paid.skipping ((ho.also (k + 1)).bind fun first => ?_) hs
        refine ((ih _ (Nat.le_refl _)).also (k + 1)).bind fun right => ih _ ?_
        rw [Expr.depth_join]
        omega

theorem paid_tiers (ho : Paid 0 operand Expr.depth) (least : Nat) :
    Paid 0 (tiers operand least) Expr.depth :=
  ho.bind fun _ => Paid.remaining.bind fun _ => paid_climb ho _ _ (Nat.le_refl _)

/-- The sign of an assignment pays for its level. -/
theorem paid_assignmentOf (ht : Paid 0 target Expr.depth) (hv : Paid 0 value Expr.depth) :
    Paid 0 (assignmentOf target value) Expr.depth := by
  refine ht.bind fun left => (Paid.accept _).bind fun o => ?_
  cases o with
  | none => exact .pure (Nat.le_refl _)
  | some sign =>
    refine (hv.also (left.depth + 1)).bind fun e => ?_
    split
    · exact .pure (by simp only [Expr.depth]; omega)
    · exact (Paid.note _).bind fun _ => .pure (by omega)

mutual

theorem paid_unary (room : Nat) : Paid 0 (unary room) Expr.depth := by
  cases room with
  | zero => exact .fail _
  | succ room => exact paid_unaryOf (paid_unary room) (paid_primaryOf (paid_expression room))

/-- No expression is deeper than it has tokens. -/
theorem paid_expression (room : Nat) : Paid 0 (expression room) Expr.depth := by
  cases room with
  | zero => exact .fail _
  | succ room => exact paid_assignmentOf (paid_tiers (paid_unary room) 1) (paid_expression room)

end

end

/-! ## Statements -/

section

variable {value : Parse Expr} {nested declaration statement : Parse Stmt}

theorem paid_expressionStatement (hv : Paid 0 value Expr.depth) :
    Paid 0 (expressionStatement value) Stmt.depth :=
  hv.bind fun _ => (Paid.expect _ _).bind fun _ => .pure (by simp only [Stmt.depth]; omega)

/-- The word "print" is paid as well, but it is not needed. -/
theorem paid_printStatement (hv : Paid 0 value Expr.depth) (line : Int) :
    Paid 0 (printStatement value line) Stmt.depth :=
  hv.bind fun _ => (Paid.expect _ _).bind fun _ => .pure (by simp only [Stmt.depth]; omega)

theorem paid_variableDeclaration (hv : Paid 0 value Expr.depth) :
    Paid 0 (variableDeclaration value) Stmt.depth := by
  have hend (name : Token) (first : Option Expr) : Paid (depthOr 1 Expr.depth first)
      (do
        let _ ← expect .semicolon (.expectSemicolon .declaration)
        return .declare name first name.line) Stmt.depth :=
    (Paid.expect _ _).bind fun _ => .pure (by
      cases first <;> simp only [Stmt.depth, depthOr] <;> omega)
  refine (Paid.expect _ _).bind fun name => (Paid.accept _).bind fun o => ?_
  cases o with
  | none => exact .bind (.pure (Nat.le_refl _)) (hend name)
  | some _ =>
    exact (hv.also 2).bind fun e => .bind (.pure (by simp only [depthOr]; omega)) (hend name)

theorem paid_declarationOf (hv : Paid 0 value Expr.depth) (hs : Paid 0 statement Stmt.depth) :
    Paid 0 (declarationOf value statement) Stmt.depth := by
  refine (Paid.accept _).bind fun o => ?_
  cases o with
  | none => exact hs
  | some _ => exact (paid_variableDeclaration hv).mono (Nat.zero_le _)

theorem paid_declarations (hd : Paid 0 declaration Stmt.depth) (fuel : Nat) :
    Paid 0 (declarations declaration fuel) Stmt.deepest := by
  induction fuel with
  | zero => exact .pure (Nat.le_refl _)
  | succ fuel ih =>
    refine .looking (.pure (Nat.le_refl _)) fun t s hs => ?_
    dsimp only
    split
    · exact Paid.pure (Nat.le_refl _) s
    · refine Paid.bind hd (fun d => (ih.also d.depth).bind fun later => .pure ?_) s
      simp only [Stmt.deepest]
      omega

theorem paid_blockOf (hd : Paid 0 declaration Stmt.depth) :
    Paid 0 (blockOf declaration) Stmt.deepest :=
  Paid.remaining.bind fun _ => (paid_declarations hd _).bind fun _ =>
    (Paid.expect _ _).bind fun _ => .pure (Nat.le_succ _)

/-- The word of a conditional pays for its level. -/
theorem paid_conditional (hv : Paid 0 value Expr.depth) (hn : Paid 0 nested Stmt.depth)
    (line : Int) : Paid 0 (conditional value nested line) Stmt.depth := by
  refine (Paid.expect _ _).bind fun _ => (hv.also 1).bind fun c => (Paid.expect _ _).bind fun _ =>
    (hn.also _).bind fun body => (Paid.accept _).bind fun o => ?_
  cases o with
  | none => exact .pure (by simp only [Stmt.depth, depthOr]; omega)
  | some _ =>
    refine (hn.also _).bind fun other => .pure ?_
    simp only [Stmt.depth]
    omega

theorem paid_whileLoop (hv : Paid 0 value Expr.depth) (hn : Paid 0 nested Stmt.depth)
    (line : Int) : Paid 0 (whileLoop value nested line) Stmt.depth := by
  refine (Paid.expect _ _).bind fun _ => (hv.also 1).bind fun c => (Paid.expect _ _).bind fun _ =>
    (hn.also _).bind fun body => .pure ?_
  simp only [Stmt.depth]
  omega

theorem paid_firstClause (hv : Paid 0 value Expr.depth) :
    Paid 0 (firstClause value) (depthOr 1 Stmt.depth) := by
  refine (Paid.accept _).bind fun o => ?_
  cases o with
  | some _ => exact .pure (Nat.le_refl _)
  | none =>
    refine (Paid.accept _).bind fun o => ?_
    cases o with
    | some _ =>
      exact ((paid_variableDeclaration hv).mono (Nat.zero_le _)).bind fun s =>
        .pure (Nat.le_refl _)
    | none => exact (paid_expressionStatement hv).bind fun s => .pure (Nat.le_refl _)

theorem paid_optional (hv : Paid 0 value Expr.depth) (kind : TokenKind) :
    Paid 0 (optional value kind) (depthOr 0 Expr.depth) := by
  have hvalue : Paid 0 (value >>= fun e => pure (some e)) (depthOr 0 Expr.depth) :=
    hv.bind fun e => .pure (Nat.le_refl _)
  refine .looking hvalue fun t s _ => ?_
  dsimp only
  split
  · exact Paid.pure (Nat.le_refl _) s
  · exact hvalue s

theorem paid_forClauses (hv : Paid 0 value Expr.depth) :
    Paid 0 (forClauses value) fun c => 3 + c.depth := by
  refine (Paid.expect _ _).bind fun _ => ((paid_firstClause hv).also 1).bind fun first =>
    ((paid_optional hv _).also _).bind fun condition => (Paid.expect _ _).bind fun _ =>
      ((paid_optional hv _).also _).bind fun step => (Paid.expect _ _).bind fun _ => .pure ?_
  simp only [ForClauses.depth, Nat.add_eq]
  omega

/-- A loop with clauses becomes several levels, for which its parentheses and semicolons pay. -/
theorem paid_forLoop (hv : Paid 0 value Expr.depth) (hn : Paid 0 nested Stmt.depth) (line : Int) :
    Paid 1 (forLoop value nested line) Stmt.depth := by
  refine ((paid_forClauses hv).also 1).bind fun c => (hn.also _).bind fun body => .pure ?_
  have hdepth := Stmt.depth_forLoop line c body
  simp only [Nat.add_eq]
  omega

theorem paid_statementOf (hv : Paid 0 value Expr.depth) (hn : Paid 0 nested Stmt.depth) :
    Paid 0 (statementOf value nested) Stmt.depth := by
  refine (Paid.accept _).bind fun o => ?_
  cases o with
  | none => exact paid_expressionStatement hv
  | some t =>
    dsimp only
    split
    · exact paid_forLoop hv hn _
    · exact (paid_conditional hv hn _).mono (Nat.zero_le _)
    · exact (paid_printStatement hv _).mono (Nat.zero_le _)
    · exact (paid_whileLoop hv hn _).mono (Nat.zero_le _)
    · refine ((paid_blockOf (paid_declarationOf hv hn)).also 1).bind fun body => .pure ?_
      simp only [Stmt.depth]
      omega

/-- No statement is deeper than it has tokens. -/
theorem paid_statement (room : Nat) : Paid 0 (Parse.statement room) Stmt.depth := by
  induction room with
  | zero => exact .fail _
  | succ room ih => exact paid_statementOf (paid_expression room) ih

theorem paid_declaration (room : Nat) : Paid 0 (Parse.declaration room) Stmt.depth :=
  paid_declarationOf (paid_expression room) (paid_statement room)

/-- No statement of a program has more levels than there are tokens to come. -/
theorem deepest_programOf (room fuel : Nat) (s : ParseState) :
    Stmt.deepest (programOf (Parse.declaration room) fuel s).1 ≤ s.cursor.rest.length := by
  induction fuel generalizing s with
  | zero => exact Nat.zero_le _
  | succ fuel ih =>
    by_cases hr : s.cursor.rest = []
    · rw [programOf_of_end hr]
      exact Nat.zero_le _
    · rw [programOf_succ hr]
      cases h : Parse.declaration room s with
      | ok d s₁ =>
        have hpaid := paid_declaration room s d s₁ h
        have hlater := ih s₁
        simp only [Stmt.deepest]
        omega
      | error e s₁ =>
        have hread := ((composed_declaration room).frames.of_error h).length_le
        have hrecover := length_recover s₁ e
        have hlater := ih (s₁.recover e)
        dsimp only
        omega

end

end Parse

/-- No statement of a program has more levels than the program has tokens. -/
theorem Program.deepest_ofTokens (room : Nat) (ts : List Token) :
    Stmt.deepest (Program.ofTokens room ts).statements ≤ ts.length := by
  have hdeepest := Parse.deepest_programOf room (ParseState.ofTokens ts).cursor.rest.length
    (.ofTokens ts)
  have hrest : (ParseState.ofTokens ts).cursor.rest.length ≤ ts.length := by
    rw [rest_ofTokens]
    exact (List.takeWhile_sublist _).length_le
  exact Nat.le_trans hdeepest hrest

end LoxScript
