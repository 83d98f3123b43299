import LoxScript.Grammar.Program
import LoxScript.Proofs.Grammar.Reading
import LoxScript.Proofs.Sequencing

/-!
# Which nodes are built

A tree that is built by hand may have nodes of unknown kinds, and tokens of any kind where an operator
belongs. The grammar builds no such tree: a token becomes an operator only if the table of prefix
operators or that of the tiers has it, and the table also decides between the two kinds of nodes.
`WellBuilt` says so of a tree. All trees that are read are well built, also those that stand in front
of or behind a declaration that had to be dropped (`wellBuiltAll_ofTokens`).
-/

namespace LoxScript

namespace Expr

/-- Every node of the expression is of a known kind, with an operator that belongs to it. -/
def WellBuilt : Expr → Prop
  | literal _ _ | read _ _ => True
  | unary op e _ => (op.kind = .bang ∨ op.kind = .minus) ∧ e.WellBuilt
  | binary l op r _ =>
    (∃ tier, Tier.of? op.kind = some tier ∧ tier.connects = false) ∧ l.WellBuilt ∧ r.WellBuilt
  | logical l op r _ =>
    (∃ tier, Tier.of? op.kind = some tier ∧ tier.connects = true) ∧ l.WellBuilt ∧ r.WellBuilt
  | grouping e _ | assign _ e _ => e.WellBuilt
  | malformed _ _ => False

/-- An operator of some tier joins well-built operands. -/
theorem wellBuilt_join {tier : Tier} {op : Token} {l r : Expr} (hop : Tier.of? op.kind = some tier)
    (hl : l.WellBuilt) (hr : r.WellBuilt) : (tier.join l op r).WellBuilt := by
  unfold Tier.join
  split
  · next hc => exact ⟨⟨tier, hop, hc⟩, hl, hr⟩
  · next hc => exact ⟨⟨tier, hop, eq_false_of_ne_true hc⟩, hl, hr⟩

/-- What a token is by itself is well built. -/
theorem wellBuilt_ofToken? {t : Token} {e : Expr} (h : ofToken? t = some e) : e.WellBuilt := by
  unfold ofToken? at h
  split at h <;> cases h <;> trivial

end Expr

namespace Stmt

mutual

/-- Every node of the statement is of a known kind, and so is every node of its expressions. -/
def WellBuilt : Stmt → Prop
  | expression e _ | print e _ => e.WellBuilt
  | declare _ first _ => ∀ e, first = some e → e.WellBuilt
  | block body _ => WellBuiltAll body
  | ifThen c s _ | loop c s _ => c.WellBuilt ∧ s.WellBuilt
  | ifElse c s t _ => c.WellBuilt ∧ s.WellBuilt ∧ t.WellBuilt
  | malformed _ _ => False

/-- Every node of the statements is of a known kind. -/
def WellBuiltAll : List Stmt → Prop
  | [] => True
  | s :: ss => s.WellBuilt ∧ WellBuiltAll ss

end

end Stmt

/-- All clauses that are present are well built. -/
structure ForClauses.WellBuilt (clauses : ForClauses) : Prop where
  first : ∀ s, clauses.first = some s → s.WellBuilt
  condition : ∀ e, clauses.condition = some e → e.WellBuilt
  step : ∀ e, clauses.step = some e → e.WellBuilt

/-- The nodes that are put around the clauses of a "for" loop are of known kinds. -/
theorem Stmt.wellBuilt_forLoop {line : Int} {clauses : ForClauses} {body : Stmt}
    (hc : clauses.WellBuilt) (hb : body.WellBuilt) : (Stmt.forLoop line clauses body).WellBuilt := by
  have hcondition : (clauses.condition.getD (.literal (.bool true) line)).WellBuilt := by
    cases h : clauses.condition with
    | none => trivial
    | some e => exact hc.condition e h
  have hwhole {turn : Stmt} (hturn : turn.WellBuilt) : (Stmt.loop
      (clauses.condition.getD (.literal (.bool true) line)) turn line).WellBuilt :=
    ⟨hcondition, hturn⟩
  unfold forLoop
  cases hstep : clauses.step with
  | none =>
    cases hfirst : clauses.first with
    | none => exact hwhole hb
    | some s => exact ⟨hc.first s hfirst, hwhole hb, trivial⟩
  | some e =>
    have hturn : (Stmt.block [body, .expression e e.line] line).WellBuilt :=
      ⟨hb, hc.step e hstep, trivial⟩
    cases hfirst : clauses.first with
    | none => exact hwhole hturn
    | some s => exact ⟨hc.first s hfirst, hwhole hturn, trivial⟩

namespace Parse

/-! ## Expressions -/

section

variable {operand inner nested primary target value : Parse Expr}

/-- A token that is accepted has one of the kinds. -/
theorem ensures_accept (kinds : List TokenKind) :
    Ensures (accept kinds) fun o => ∀ t, o = some t → t.kind ∈ kinds := by
  rw [accept_eq]
  refine .after fun o => ?_
  cases o with
  | none => exact .pure (by simp)
  | some t =>
    dsimp only
    split
    · next hk => exact .after fun _ => .pure (by simpa using hk)
    · exact .pure (by simp)

/-- What breaks off ensures anything. -/
theorem ensures_fail {α : Type} (cause : SyntaxCause) (Q : α → Prop) :
    Ensures (fail cause : Parse α) Q := by
  intro s a s₁ h
  cases h

/-- A primary expression is well built if the expression in its parentheses is. -/
theorem wellBuilt_primaryOf (hi : Ensures inner Expr.WellBuilt) :
    Ensures (primaryOf inner) Expr.WellBuilt := by
  refine .after fun o => ?_
  cases o with
  | none => exact ensures_fail _ _
  | some t =>
    dsimp only
    split
    · next e he => exact .after fun _ => .pure (Expr.wellBuilt_ofToken? he)
    · split
      · exact .after fun _ => hi.bind fun e he => .after fun _ => .pure he
      · exact ensures_fail _ _

theorem wellBuilt_unaryOf (hn : Ensures nested Expr.WellBuilt) (hp : Ensures primary Expr.WellBuilt) :
    Ensures (unaryOf nested primary) Expr.WellBuilt := by
  refine (ensures_accept _).bind fun o ho => ?_
  cases o with
  | none => exact hp
  | some op => exact hn.bind fun e he => .pure ⟨by simpa using ho op rfl, he⟩

/-- A fold of operators keeps its operand on the left well built. -/
theorem wellBuilt_climb (ho : Ensures operand Expr.WellBuilt) (fuel least : Nat) {left : Expr}
    (hl : left.WellBuilt) : Ensures (climb operand fuel least left) Expr.WellBuilt := by
  induction fuel generalizing least left with
  | zero => exact .pure hl
  | succ fuel ih =>
    rw [climb_succ]
    refine .after fun o => ?_
    cases o with
    | none => exact .pure hl
    | some t =>
      dsimp only
      split
      · exact .pure hl
      · next tier htier =>
        split
        · exact .pure hl
        · exact .after fun _ => ho.bind fun first hf => (ih _ hf).bind fun right hr =>
            ih _ (Expr.wellBuilt_join htier hl hr)

theorem wellBuilt_tiers (ho : Ensures operand Expr.WellBuilt) (least : Nat) :
    Ensures (tiers operand least) Expr.WellBuilt :=
  ho.bind fun _ hl => .after fun _ => wellBuilt_climb ho _ _ hl

/-- An assignment is well built, and so is what takes its place. -/
theorem wellBuilt_assignmentOf (ht : Ensures target Expr.WellBuilt)
    (hv : Ensures value Expr.WellBuilt) : Ensures (assignmentOf target value) Expr.WellBuilt := by
  refine ht.bind fun left hl => .after fun o => ?_
  cases o with
  | none => exact .pure hl
  | some sign =>
    refine hv.bind fun e he => ?_
    split
    · exact .pure he
    · exact .after fun _ => .pure hl

mutual

theorem wellBuilt_unary (room : Nat) : Ensures (unary room) Expr.WellBuilt := by
  cases room with
  | zero => exact ensures_fail _ _
  | succ room =>
    exact wellBuilt_unaryOf (wellBuilt_unary room) (wellBuilt_primaryOf (wellBuilt_expression room))

/-- Reading yields well-built expressions only. -/
theorem wellBuilt_expression (room : Nat) : Ensures (expression room) Expr.WellBuilt := by
  cases room with
  | zero => exact ensures_fail _ _
  | succ room =>
    exact wellBuilt_assignmentOf (wellBuilt_tiers (wellBuilt_unary room) 1)
      (wellBuilt_expression room)

end

end

/-! ## Statements -/

section

variable {value : Parse Expr} {nested declaration statement : Parse Stmt}

theorem wellBuilt_expressionStatement (hv : Ensures value Expr.WellBuilt) :
    Ensures (expressionStatement value) Stmt.WellBuilt :=
  hv.bind fun _ he => .after fun _ => .pure he

theorem wellBuilt_variableDeclaration (hv : Ensures value Expr.WellBuilt) :
    Ensures (variableDeclaration value) Stmt.WellBuilt := by
  -- the value is handed on through the two cases, with or without one
  refine .after fun name => .after fun o => ?_
  cases o with
  | none =>
    exact .bind (Q := (· = none)) (.pure rfl) fun first hf => .after fun _ =>
      .pure (by simp [Stmt.WellBuilt, hf])
  | some _ =>
    exact hv.bind fun e he => .bind (Q := (· = some e)) (.pure rfl) fun first hf =>
      .after fun _ => .pure (by simpa [Stmt.WellBuilt, hf] using he)

theorem wellBuilt_declarationOf (hv : Ensures value Expr.WellBuilt)
    (hs : Ensures statement Stmt.WellBuilt) :
    Ensures (declarationOf value statement) Stmt.WellBuilt := by
  refine .after fun o => ?_
  cases o with
  | none => exact hs
  | some _ => exact wellBuilt_variableDeclaration hv

theorem wellBuilt_declarations (hd : Ensures declaration Stmt.WellBuilt) (fuel : Nat) :
    Ensures (declarations declaration fuel) Stmt.WellBuiltAll := by
  induction fuel with
  | zero => exact .pure trivial
  | succ fuel ih =>
    refine .after fun o => ?_
    cases o with
    | none => exact .pure trivial
    | some t =>
      dsimp only
      split
      · exact .pure trivial
      · exact hd.bind fun s hs => ih.bind fun later hl => .pure ⟨hs, hl⟩

theorem wellBuilt_optional (hv : Ensures value Expr.WellBuilt) (kind : TokenKind) :
    Ensures (optional value kind) fun o => ∀ e, o = some e → e.WellBuilt := by
  refine .after fun o => ?_
  cases o with
  | none => exact hv.bind fun e he => .pure (by simpa using he)
  | some t =>
    dsimp only
    split
    · exact .pure (by simp)
    · exact hv.bind fun e he => .pure (by simpa using he)

theorem wellBuilt_firstClause (hv : Ensures value Expr.WellBuilt) :
    Ensures (firstClause value) fun o => ∀ s, o = some s → s.WellBuilt := by
  refine .after fun o => ?_
  cases o with
  | some _ => exact .pure (by simp)
  | none =>
    refine .after fun o => ?_
    cases o with
    | some _ => exact (wellBuilt_variableDeclaration hv).bind fun s hs => .pure (by simpa using hs)
    | none => exact (wellBuilt_expressionStatement hv).bind fun s hs => .pure (by simpa using hs)

theorem wellBuilt_forClauses (hv : Ensures value Expr.WellBuilt) :
    Ensures (forClauses value) ForClauses.WellBuilt :=
  .after fun _ => (wellBuilt_firstClause hv).bind fun _ hfirst =>
    (wellBuilt_optional hv _).bind fun _ hcondition => .after fun _ =>
      (wellBuilt_optional hv _).bind fun _ hstep => .after fun _ =>
        .pure ⟨hfirst, hcondition, hstep⟩

/-- A statement whose parts are well built is well built. -/
theorem wellBuilt_statementOf (hv : Ensures value Expr.WellBuilt)
    (hn : Ensures nested Stmt.WellBuilt) : Ensures (statementOf value nested) Stmt.WellBuilt := by
  refine .after fun o => ?_
  cases o with
  | none => exact wellBuilt_expressionStatement hv
  | some t =>
    dsimp only
    split
    · exact (wellBuilt_forClauses hv).bind fun c hc => hn.bind fun body hb =>
        .pure (Stmt.wellBuilt_forLoop hc hb)
    · refine .after fun _ => hv.bind fun c hc => .after fun _ => hn.bind fun body hb =>
        .after fun o => ?_
      cases o with
      | none => exact .pure ⟨hc, hb⟩
      | some _ => exact hn.bind fun other ho => .pure ⟨hc, hb, ho⟩
    · exact hv.bind fun e he => .after fun _ => .pure he
    · exact .after fun _ => hv.bind fun c hc => .after fun _ => hn.bind fun body hb =>
        .pure ⟨hc, hb⟩
    · refine .bind (Q := Stmt.WellBuiltAll) ?_ fun body hb => .pure hb
      exact .after fun n => (wellBuilt_declarations (wellBuilt_declarationOf hv hn) n).bind
        fun body hb => .after fun _ => .pure hb

/-- Reading yields well-built statements only. -/
theorem wellBuilt_statement (room : Nat) : Ensures (Parse.statement room) Stmt.WellBuilt := by
  induction room with
  | zero => exact ensures_fail _ _
  | succ room ih => exact wellBuilt_statementOf (wellBuilt_expression room) ih

theorem wellBuilt_declaration (room : Nat) : Ensures (Parse.declaration room) Stmt.WellBuilt :=
  wellBuilt_declarationOf (wellBuilt_expression room) (wellBuilt_statement room)

/-- What is kept of a program is well built, whatever had to be dropped. -/
theorem wellBuiltAll_programOf (hd : Ensures declaration Stmt.WellBuilt) (fuel : Nat)
    (s : ParseState) : Stmt.WellBuiltAll (programOf declaration fuel s).1 := by
  induction fuel generalizing s with
  | zero => trivial
  | succ fuel ih =>
    unfold programOf
    split
    · trivial
    · cases h : declaration s with
      | ok d s₁ => exact ⟨hd s d s₁ h, ih s₁⟩
      | error e s₁ => exact ih _

end

end Parse

/-- Every program that is read from tokens is well built. -/
theorem wellBuiltAll_ofTokens (room : Nat) (ts : List Token) :
    Stmt.WellBuiltAll (Program.ofTokens room ts).statements :=
  Parse.wellBuiltAll_programOf (Parse.wellBuilt_declaration room) _ _

end LoxScript
