import LoxScript.Proofs.Grammar.Acceptance

/-!
# Other names and other lines

The grammar looks at the kinds of tokens, and hands their literals on. The names of variables and the
lines are labels to it: it copies them into the tree and into its errors, and decides nothing by them.
So if every token gets another label, in such a way that names are changed by one function and lines by
another one, the result gets other labels in the same way: the statements, the errors, and the cursor.
-/

namespace LoxScript

open ParseState

/-- A change of labels. -/
structure Relabeling where
  /-- What becomes of the name of a variable. -/
  name : String → String
  line : Int → Int

variable {ρ : Relabeling}

/-! ## Tokens and trees with other labels -/

namespace Token

/-- The token with another label. Only the lexeme of an identifier is the name of a variable. -/
def relabeled (ρ : Relabeling) (t : Token) : Token :=
  { t with
    lexeme := if t.kind = .identifier then ρ.name t.lexeme else t.lexeme
    line := ρ.line t.line }

/-- The token of a name with another label. -/
def renamed (ρ : Relabeling) (t : Token) : Token :=
  { t with lexeme := ρ.name t.lexeme, line := ρ.line t.line }

@[simp] theorem kind_relabeled (t : Token) : (t.relabeled ρ).kind = t.kind := rfl

@[simp] theorem line_relabeled (t : Token) : (t.relabeled ρ).line = ρ.line t.line := rfl

@[simp] theorem lexeme_renamed (t : Token) : (t.renamed ρ).lexeme = ρ.name t.lexeme := rfl

/-- A name is given its other label, as it is wherever it stands for a variable. -/
theorem relabeled_of_identifier {t : Token} (h : t.kind = .identifier) :
    t.relabeled ρ = t.renamed ρ := by
  simp [relabeled, renamed, h]

end Token

/-- The expression with other names and lines. -/
def Expr.relabeled (ρ : Relabeling) : Expr → Expr
  | literal v l => .literal v (ρ.line l)
  | unary op e l => .unary (op.relabeled ρ) (e.relabeled ρ) (ρ.line l)
  | binary e op f l => .binary (e.relabeled ρ) (op.relabeled ρ) (f.relabeled ρ) (ρ.line l)
  | logical e op f l => .logical (e.relabeled ρ) (op.relabeled ρ) (f.relabeled ρ) (ρ.line l)
  | grouping e l => .grouping (e.relabeled ρ) (ρ.line l)
  | read name l => .read (name.renamed ρ) (ρ.line l)
  | assign name e l => .assign (name.renamed ρ) (e.relabeled ρ) (ρ.line l)
  | malformed kind l => .malformed kind (ρ.line l)

@[simp] theorem Expr.line_relabeled (e : Expr) : (e.relabeled ρ).line = ρ.line e.line := by
  cases e <;> rfl

/-- A token with another label is the expression with other labels, or none as before. -/
theorem Expr.ofToken?_relabeled (t : Token) :
    Expr.ofToken? (t.relabeled ρ) = (Expr.ofToken? t).map (Expr.relabeled ρ) := by
  obtain ⟨kind, lexeme, literal, line⟩ := t
  cases kind <;> rfl

theorem Tier.join_relabeled (tier : Tier) (l : Expr) (op : Token) (r : Expr) :
    tier.join (l.relabeled ρ) (op.relabeled ρ) (r.relabeled ρ) =
      (tier.join l op r).relabeled ρ := by
  cases tier <;> rfl

namespace Stmt

mutual

/-- The statement with other names and lines. -/
def relabeled (ρ : Relabeling) : Stmt → Stmt
  | expression e l => .expression (e.relabeled ρ) (ρ.line l)
  | print e l => .print (e.relabeled ρ) (ρ.line l)
  | declare name first l =>
    .declare (name.renamed ρ) (first.map (Expr.relabeled ρ)) (ρ.line l)
  | block body l => .block (relabeledAll ρ body) (ρ.line l)
  | ifThen c s l => .ifThen (c.relabeled ρ) (s.relabeled ρ) (ρ.line l)
  | ifElse c s t l => .ifElse (c.relabeled ρ) (s.relabeled ρ) (t.relabeled ρ) (ρ.line l)
  | loop c s l => .loop (c.relabeled ρ) (s.relabeled ρ) (ρ.line l)
  | malformed kind l => .malformed kind (ρ.line l)

/-- Statements in a row with other names and lines. -/
def relabeledAll (ρ : Relabeling) : List Stmt → List Stmt
  | [] => []
  | s :: ss => s.relabeled ρ :: relabeledAll ρ ss

end

end Stmt

/-- The clauses of a loop with other names and lines. -/
def ForClauses.relabeled (ρ : Relabeling) (c : ForClauses) : ForClauses :=
  ⟨c.first.map (Stmt.relabeled ρ), c.condition.map (Expr.relabeled ρ),
    c.step.map (Expr.relabeled ρ)⟩

/-- What a loop with clauses unrolls to depends on no label. -/
theorem Stmt.forLoop_relabeled (line : Int) (clauses : ForClauses) (body : Stmt) :
    Stmt.forLoop (ρ.line line) (clauses.relabeled ρ) (body.relabeled ρ) =
      (Stmt.forLoop line clauses body).relabeled ρ := by
  obtain ⟨first, condition, step⟩ := clauses
  cases first <;> cases condition <;> cases step <;>
    simp [Stmt.forLoop, ForClauses.relabeled, Stmt.relabeled, Stmt.relabeledAll, Expr.relabeled]

/-- The error with another label on the token that it blames. -/
def SyntaxError.relabeled (ρ : Relabeling) (e : SyntaxError) : SyntaxError :=
  ⟨e.token.relabeled ρ, e.cause⟩

/-- The cursor in the list of relabeled tokens. -/
def Cursor.relabeled (ρ : Relabeling) (c : Cursor) : Cursor :=
  ⟨c.past.map (Token.relabeled ρ), c.rest.map (Token.relabeled ρ), c.stop.relabeled ρ,
    c.last.relabeled ρ⟩

namespace ParseState

/-- The state in the list of relabeled tokens. -/
def relabeled (ρ : Relabeling) (s : ParseState) : ParseState :=
  ⟨s.cursor.relabeled ρ, s.noted.map (SyntaxError.relabeled ρ), s.panicked⟩

@[simp] theorem rest_relabeled (s : ParseState) :
    (s.relabeled ρ).cursor.rest = s.cursor.rest.map (Token.relabeled ρ) := rfl

/-- Passing a token is the same with other labels. -/
theorem advance_relabeled (s : ParseState) :
    (s.relabeled ρ).advance = s.advance.relabeled ρ := by
  obtain ⟨⟨past, rest, stop, last⟩, noted, panicked⟩ := s
  cases rest <;> rfl

theorem current_relabeled (s : ParseState) :
    (s.relabeled ρ).cursor.current = s.cursor.current.relabeled ρ := by
  obtain ⟨⟨past, rest, stop, last⟩, noted, panicked⟩ := s
  cases rest <;> rfl

theorem previous_relabeled (s : ParseState) :
    (s.relabeled ρ).cursor.previous = s.cursor.previous.relabeled ρ := by
  obtain ⟨⟨past, rest, stop, last⟩, noted, panicked⟩ := s
  cases past <;> rfl

theorem note_relabeled (s : ParseState) (e : SyntaxError) :
    (s.relabeled ρ).note (e.relabeled ρ) = (s.note e).relabeled ρ := by
  simp [note, relabeled]

end ParseState

/-! ## Steps that do not look at labels -/

namespace Parse

variable {α β : Type}

/-- In the list of relabeled tokens, the second step does what the first one does in the given list,
if `φ` relabels results. -/
abbrev Relabels (ρ : Relabeling) (φ : α → α) (p q : Parse α) : Prop :=
  Translates (fun s t => t = ParseState.relabeled ρ s) (SyntaxError.relabeled ρ) φ p q

theorem ensures_expect (kind : TokenKind) (cause : SyntaxCause) :
    Ensures (expect kind cause) fun t => t.kind = kind := by
  intro s t s₁ h
  unfold expect at h
  split at h
  · cases h
  · split at h
    · next hk =>
      cases h
      exact hk
    · cases h

namespace Relabels

variable {φ : α → α}

theorem look : Relabels ρ (Option.map (Token.relabeled ρ)) look look := by
  rintro s _ rfl
  obtain ⟨⟨past, rest, stop, last⟩, noted, panicked⟩ := s
  cases rest with
  | nil => exact .ok rfl
  | cons t ts => exact .ok rfl

theorem fail (cause : SyntaxCause) : Relabels ρ φ (fail cause) (fail cause) := by
  rintro s _ rfl
  have herror : (⟨(s.relabeled ρ).cursor.current, cause⟩ : SyntaxError) =
      SyntaxError.relabeled ρ ⟨s.cursor.current, cause⟩ := by
    rw [current_relabeled]
    rfl
  unfold Parse.fail
  rw [herror]
  exact .error rfl

theorem note (e : SyntaxError) : Relabels ρ id (note e) (note (e.relabeled ρ)) := by
  rintro s _ rfl
  unfold Parse.note
  rw [note_relabeled]
  exact .ok rfl

theorem advance : Relabels ρ (Token.relabeled ρ) advance advance := by
  rintro s _ rfl
  unfold Parse.advance
  rw [advance_relabeled, previous_relabeled]
  exact .ok rfl

theorem remaining : Relabels ρ id remaining remaining := by
  rintro s _ rfl
  unfold Parse.remaining
  rw [rest_relabeled, List.length_map]
  exact .ok rfl

theorem accept (kinds : List TokenKind) :
    Relabels ρ (Option.map (Token.relabeled ρ)) (accept kinds) (accept kinds) := by
  rintro s _ rfl
  obtain ⟨⟨past, rest, stop, last⟩, noted, panicked⟩ := s
  cases rest with
  | nil => exact .ok rfl
  | cons t ts =>
    show Translated _ _ _ (if kinds.contains t.kind then _ else _)
      (if kinds.contains t.kind then _ else _)
    split
    · exact .ok rfl
    · exact .ok rfl

theorem expect (kind : TokenKind) (cause : SyntaxCause) :
    Relabels ρ (Token.relabeled ρ) (expect kind cause) (expect kind cause) := by
  rintro s _ rfl
  obtain ⟨⟨past, rest, stop, last⟩, noted, panicked⟩ := s
  cases rest with
  | nil => exact .error rfl
  | cons t ts =>
    show Translated _ _ _ (if t.kind = kind then _ else _) (if t.kind = kind then _ else _)
    split
    · exact .ok rfl
    · exact .error rfl

end Relabels

/-! ## Expressions -/

/-- Primary expressions are read alike with other labels. -/
theorem relabels_primaryOf {inner : Parse Expr}
    (hi : Relabels ρ (Expr.relabeled ρ) inner inner) :
    Relabels ρ (Expr.relabeled ρ) (primaryOf inner) (primaryOf inner) := by
  refine Relabels.look.bind fun o => ?_
  cases o with
  | none => exact Relabels.fail _
  | some t =>
    simp only [Option.map_some, Expr.ofToken?_relabeled, Token.kind_relabeled]
    cases Expr.ofToken? t with
    | some e => exact Relabels.advance.bind fun _ => .pure e
    | none =>
      exact .choice (Relabels.advance.bind fun _ => hi.bind fun e =>
        (Relabels.expect _ _).bind fun _ => .pure _) (Relabels.fail _)

theorem relabels_unaryOf {nested primary : Parse Expr}
    (hn : Relabels ρ (Expr.relabeled ρ) nested nested)
    (hp : Relabels ρ (Expr.relabeled ρ) primary primary) :
    Relabels ρ (Expr.relabeled ρ) (unaryOf nested primary) (unaryOf nested primary) := by
  refine (Relabels.accept _).bind fun o => ?_
  cases o with
  | none => exact hp
  | some op => exact hn.bind fun e => .pure _

theorem relabels_climb {operand : Parse Expr}
    (ho : Relabels ρ (Expr.relabeled ρ) operand operand) (fuel least : Nat) (left : Expr) :
    Relabels ρ (Expr.relabeled ρ) (climb operand fuel least left)
      (climb operand fuel least (left.relabeled ρ)) := by
  induction fuel generalizing least left with
  | zero => exact .pure left
  | succ fuel ih =>
    refine Relabels.look.bind fun o => ?_
    have hkind : (o.map (Token.relabeled ρ)).bind (fun t => Tier.of? t.kind) =
        o.bind fun t => Tier.of? t.kind := by
      cases o <;> rfl
    rw [hkind]
    split
    · exact .pure left
    · next tier _ =>
      split
      · exact .pure left
      · refine Relabels.advance.bind fun op => ho.bind fun first =>
          (ih (tier.level + 1) first).bind fun right => ?_
        rw [tier.join_relabeled]
        exact ih least _

theorem relabels_tiers {operand : Parse Expr}
    (ho : Relabels ρ (Expr.relabeled ρ) operand operand) (least : Nat) :
    Relabels ρ (Expr.relabeled ρ) (tiers operand least) (tiers operand least) :=
  ho.bind fun left => Relabels.remaining.bind fun fuel => relabels_climb ho fuel least left

/-- Whether the target is a variable depends on no label. -/
theorem relabels_assignmentOf {target value : Parse Expr}
    (ht : Relabels ρ (Expr.relabeled ρ) target target)
    (hv : Relabels ρ (Expr.relabeled ρ) value value) :
    Relabels ρ (Expr.relabeled ρ) (assignmentOf target value) (assignmentOf target value) := by
  refine ht.bind fun left => (Relabels.accept _).bind fun o => ?_
  cases o with
  | none => exact .pure left
  | some sign =>
    refine hv.bind fun e => ?_
    cases left with
    | read name _ => exact .pure _
    | _ => exact (Relabels.note _).bind fun _ => .pure _

mutual

theorem relabels_unary (room : Nat) :
    Relabels ρ (Expr.relabeled ρ) (unary room) (unary room) := by
  cases room with
  | zero => exact Relabels.fail _
  | succ room =>
    exact relabels_unaryOf (relabels_unary room) (relabels_primaryOf (relabels_expression room))

/-- Expressions are read alike with other labels. -/
theorem relabels_expression (room : Nat) :
    Relabels ρ (Expr.relabeled ρ) (expression room) (expression room) := by
  cases room with
  | zero => exact Relabels.fail _
  | succ room =>
    exact relabels_assignmentOf (relabels_tiers (relabels_unary room) 1) (relabels_expression room)

end

/-! ## Statements -/

section

variable {value : Parse Expr} {nested : Parse Stmt}

theorem relabels_expressionStatement (hv : Relabels ρ (Expr.relabeled ρ) value value) :
    Relabels ρ (Stmt.relabeled ρ) (expressionStatement value) (expressionStatement value) := by
  refine hv.bind fun e => (Relabels.expect _ _).bind fun _ => ?_
  rw [e.line_relabeled]
  exact .pure _

theorem relabels_printStatement (hv : Relabels ρ (Expr.relabeled ρ) value value) (line : Int) :
    Relabels ρ (Stmt.relabeled ρ) (printStatement value line)
      (printStatement value (ρ.line line)) :=
  hv.bind fun _ => (Relabels.expect _ _).bind fun _ => .pure _

theorem relabels_variableDeclaration (hv : Relabels ρ (Expr.relabeled ρ) value value) :
    Relabels ρ (Stmt.relabeled ρ) (variableDeclaration value) (variableDeclaration value) := by
  refine (Relabels.expect _ _).bind_ensured (ensures_expect _ _) fun name hname => ?_
  -- the token behind "var" is an identifier, so that its lexeme is a name
  rw [Token.relabeled_of_identifier hname]
  refine (Relabels.accept _).bind fun o => ?_
  have hfirst : ∀ first : Option Expr, Relabels ρ (Stmt.relabeled ρ)
      (do
        let _ ← expect .semicolon (.expectSemicolon .declaration)
        return .declare name first name.line)
      (do
        let _ ← expect .semicolon (.expectSemicolon .declaration)
        return .declare (name.renamed ρ) (first.map (Expr.relabeled ρ)) (name.renamed ρ).line) :=
    fun first => (Relabels.expect _ _).bind fun _ => .pure _
  have hpure : ∀ first : Option Expr, Relabels ρ (Option.map (Expr.relabeled ρ)) (pure first)
      (pure (first.map (Expr.relabeled ρ))) := fun first => .pure first
  cases o with
  | none => exact (hpure none).bind hfirst
  | some sign => exact hv.bind fun e => (hpure (some e)).bind hfirst

theorem relabels_declarationOf (hv : Relabels ρ (Expr.relabeled ρ) value value)
    (hn : Relabels ρ (Stmt.relabeled ρ) nested nested) :
    Relabels ρ (Stmt.relabeled ρ) (declarationOf value nested) (declarationOf value nested) := by
  refine (Relabels.accept _).bind fun o => ?_
  cases o with
  | none => exact hn
  | some _ => exact relabels_variableDeclaration hv

theorem relabels_declarations {declaration : Parse Stmt}
    (hd : Relabels ρ (Stmt.relabeled ρ) declaration declaration) (fuel : Nat) :
    Relabels ρ (Stmt.relabeledAll ρ) (declarations declaration fuel)
      (declarations declaration fuel) := by
  induction fuel with
  | zero => exact .pure _
  | succ fuel ih =>
    refine Relabels.look.bind fun o => ?_
    cases o with
    | none => exact .pure _
    | some t => exact .choice (.pure _) (hd.bind fun s => ih.bind fun later => .pure _)

theorem relabels_blockOf {declaration : Parse Stmt}
    (hd : Relabels ρ (Stmt.relabeled ρ) declaration declaration) :
    Relabels ρ (Stmt.relabeledAll ρ) (blockOf declaration) (blockOf declaration) :=
  Relabels.remaining.bind fun fuel => (relabels_declarations hd fuel).bind fun _ =>
    (Relabels.expect _ _).bind fun _ => .pure _

theorem relabels_conditional (hv : Relabels ρ (Expr.relabeled ρ) value value)
    (hn : Relabels ρ (Stmt.relabeled ρ) nested nested) (line : Int) :
    Relabels ρ (Stmt.relabeled ρ) (conditional value nested line)
      (conditional value nested (ρ.line line)) := by
  refine (Relabels.expect _ _).bind fun _ => hv.bind fun c => (Relabels.expect _ _).bind fun _ =>
    hn.bind fun body => (Relabels.accept _).bind fun o => ?_
  cases o with
  | none => exact .pure _
  | some _ => exact hn.bind fun other => .pure _

theorem relabels_whileLoop (hv : Relabels ρ (Expr.relabeled ρ) value value)
    (hn : Relabels ρ (Stmt.relabeled ρ) nested nested) (line : Int) :
    Relabels ρ (Stmt.relabeled ρ) (whileLoop value nested line)
      (whileLoop value nested (ρ.line line)) :=
  (Relabels.expect _ _).bind fun _ => hv.bind fun _ => (Relabels.expect _ _).bind fun _ =>
    hn.bind fun _ => .pure _

theorem relabels_firstClause (hv : Relabels ρ (Expr.relabeled ρ) value value) :
    Relabels ρ (Option.map (Stmt.relabeled ρ)) (firstClause value) (firstClause value) := by
  refine (Relabels.accept _).bind fun o => ?_
  cases o with
  | some _ => exact .pure _
  | none =>
    refine (Relabels.accept _).bind fun o => ?_
    cases o with
    | some _ => exact (relabels_variableDeclaration hv).bind fun s => .pure _
    | none => exact (relabels_expressionStatement hv).bind fun s => .pure _

theorem relabels_optional (hv : Relabels ρ (Expr.relabeled ρ) value value) (kind : TokenKind) :
    Relabels ρ (Option.map (Expr.relabeled ρ)) (optional value kind) (optional value kind) := by
  refine Relabels.look.bind fun o => ?_
  cases o with
  | none => exact hv.bind fun e => .pure _
  | some t => exact .choice (.pure _) (hv.bind fun e => .pure _)

theorem relabels_forClauses (hv : Relabels ρ (Expr.relabeled ρ) value value) :
    Relabels ρ (ForClauses.relabeled ρ) (forClauses value) (forClauses value) :=
  (Relabels.expect _ _).bind fun _ => (relabels_firstClause hv).bind fun _ =>
    (relabels_optional hv _).bind fun _ => (Relabels.expect _ _).bind fun _ =>
      (relabels_optional hv _).bind fun _ => (Relabels.expect _ _).bind fun _ => .pure _

theorem relabels_forLoop (hv : Relabels ρ (Expr.relabeled ρ) value value)
    (hn : Relabels ρ (Stmt.relabeled ρ) nested nested) (line : Int) :
    Relabels ρ (Stmt.relabeled ρ) (forLoop value nested line)
      (forLoop value nested (ρ.line line)) := by
  refine (relabels_forClauses hv).bind fun clauses => hn.bind fun body => ?_
  rw [Stmt.forLoop_relabeled]
  exact .pure _

theorem relabels_statementOf (hv : Relabels ρ (Expr.relabeled ρ) value value)
    (hn : Relabels ρ (Stmt.relabeled ρ) nested nested) :
    Relabels ρ (Stmt.relabeled ρ) (statementOf value nested) (statementOf value nested) := by
  refine (Relabels.accept _).bind fun o => ?_
  cases o with
  | none => exact relabels_expressionStatement hv
  | some t =>
    have hblock : Relabels ρ (Stmt.relabeled ρ)
        (do
          let body ← blockOf (declarationOf value nested)
          return .block body t.line)
        (do
          let body ← blockOf (declarationOf value nested)
          return .block body (ρ.line t.line)) :=
      (relabels_blockOf (relabels_declarationOf hv hn)).bind fun _ => .pure _
    simp only [Option.map_some, Token.kind_relabeled]
    cases t.kind with
    | forWord => exact relabels_forLoop hv hn _
    | ifWord => exact relabels_conditional hv hn _
    | printWord => exact relabels_printStatement hv _
    | whileWord => exact relabels_whileLoop hv hn _
    | _ => exact hblock

end

/-- Statements are read alike with other labels. -/
theorem relabels_statement (room : Nat) :
    Relabels ρ (Stmt.relabeled ρ) (statement room) (statement room) := by
  induction room with
  | zero => exact Relabels.fail _
  | succ room ih => exact relabels_statementOf (relabels_expression room) ih

theorem relabels_declaration (room : Nat) :
    Relabels ρ (Stmt.relabeled ρ) (declaration room) (declaration room) :=
  relabels_declarationOf (relabels_expression room) (relabels_statement room)

end Parse

/-! ## Programs -/

namespace Cursor

/-- End marks stay end marks. -/
theorem isProper_relabeled (t : Token) : isProper (t.relabeled ρ) = isProper t := rfl

/-- The next boundary is where it was. -/
theorem skip_relabeled (ρ : Relabeling) (past rest : List Token) :
    skip (past.map (Token.relabeled ρ)) (rest.map (Token.relabeled ρ)) =
      ((skip past rest).1.map (Token.relabeled ρ), (skip past rest).2.map (Token.relabeled ρ)) := by
  induction rest generalizing past with
  | nil => rfl
  | cons t ts ih =>
    have hpast : ((past.map (Token.relabeled ρ)).head?.any fun u => u.kind == .semicolon) =
        past.head?.any fun u => u.kind == .semicolon := by
      cases past <;> rfl
    rw [List.map_cons, skip, skip, hpast, Token.kind_relabeled]
    split
    · rfl
    · exact ih (t :: past)

/-- An empty list is closed by an end mark on line one, which then has to keep its number. -/
theorem closing_relabeled {ts : List Token} (hone : ts = [] → ρ.line 1 = 1) :
    closing (ts.map (Token.relabeled ρ)) = (closing ts).relabeled ρ := by
  have hline : ((ts.map (Token.relabeled ρ)).getLast?.map Token.line).getD 1 =
      ρ.line ((ts.getLast?.map Token.line).getD 1) := by
    rw [List.getLast?_map]
    cases hlast : ts.getLast? with
    | none => exact (hone (List.getLast?_eq_none_iff.mp hlast)).symm
    | some t => rfl
  unfold closing
  rw [hline]
  rfl

theorem closed_relabeled {ts : List Token} (hone : ts = [] → ρ.line 1 = 1) :
    closed (ts.map (Token.relabeled ρ)) = (closed ts).map (Token.relabeled ρ) := by
  have hlast : ((ts.map (Token.relabeled ρ)).getLast?.any fun t => t.kind == .endMark) =
      ts.getLast?.any fun t => t.kind == .endMark := by
    rw [List.getLast?_map]
    cases ts.getLast? <;> rfl
  unfold closed
  rw [hlast]
  split
  · rfl
  · rw [closing_relabeled hone, List.map_append, List.map_singleton]

/-- Reading starts with other labels, and the mark that is missing gets the other line. -/
theorem ofTokens_relabeled {ts : List Token} (hone : ts = [] → ρ.line 1 = 1) :
    ofTokens (ts.map (Token.relabeled ρ)) = (ofTokens ts).relabeled ρ := by
  have hproper : (isProper ∘ Token.relabeled ρ) = isProper := funext isProper_relabeled
  have hend : ((fun t => !isProper t) ∘ Token.relabeled ρ) = fun t => !isProper t := rfl
  unfold ofTokens
  simp only [closed_relabeled hone, closing_relabeled hone, relabeled, List.map_nil,
    List.takeWhile_map, hproper, List.find?_map, hend, List.getLast?_map, Option.getD_map]

end Cursor

theorem ParseState.recover_relabeled (s : ParseState) (e : SyntaxError) :
    (s.relabeled ρ).recover (e.relabeled ρ) = (s.recover e).relabeled ρ := by
  unfold recover synchronize
  rw [note_relabeled]
  obtain ⟨⟨past, rest, stop, last⟩, noted, panicked⟩ := s
  cases rest with
  | nil => rfl
  | cons t ts =>
    have hskip := Cursor.skip_relabeled ρ (t :: past) ts
    rw [List.map_cons] at hskip
    simp only [relabeled, note, Cursor.synchronize, Cursor.relabeled, List.map_cons, hskip]

/-- Programs are read alike with other labels, errors included. -/
theorem Parse.programOf_relabeled (ρ : Relabeling) (room fuel : Nat) (s : ParseState) :
    programOf (declaration room) fuel (s.relabeled ρ) =
      (Stmt.relabeledAll ρ (programOf (declaration room) fuel s).1,
        (programOf (declaration room) fuel s).2.relabeled ρ) := by
  induction fuel generalizing s with
  | zero => rfl
  | succ fuel ih =>
    by_cases hr : s.cursor.rest = []
    · have hr' : (s.relabeled ρ).cursor.rest = [] := by simp [hr]
      rw [programOf_of_end hr, programOf_of_end hr']
      rfl
    · have hr' : (s.relabeled ρ).cursor.rest ≠ [] := by simpa using hr
      have hd := relabels_declaration room s (s.relabeled ρ) rfl
      rw [programOf_succ hr, programOf_succ hr']
      generalize declaration room s = r at hd
      generalize declaration room (s.relabeled ρ) = r' at hd
      cases hd with
      | ok h =>
        subst h
        simp only [ih]
        rfl
      | error h =>
        subst h
        simp only [ParseState.recover_relabeled, ih]

/-- The program with other labels. -/
def Program.relabeled (ρ : Relabeling) (p : Program) : Program :=
  ⟨Stmt.relabeledAll ρ p.statements, p.errors.map (SyntaxError.relabeled ρ), p.panicked,
    p.position⟩

/-- Tokens with other labels are read as the same program with other labels. -/
theorem Program.ofTokens_relabeled (ρ : Relabeling) (room : Nat) (ts : List Token)
    (hone : ts = [] → ρ.line 1 = 1) :
    ofTokens room (ts.map (Token.relabeled ρ)) = (ofTokens room ts).relabeled ρ := by
  have hstate : ParseState.ofTokens (ts.map (Token.relabeled ρ)) =
      (ParseState.ofTokens ts).relabeled ρ := by
    unfold ParseState.ofTokens
    rw [Cursor.ofTokens_relabeled hone]
    rfl
  have hlength : ((ParseState.ofTokens ts).relabeled ρ).cursor.rest.length =
      (ParseState.ofTokens ts).cursor.rest.length := by
    rw [rest_relabeled, List.length_map]
  have hprogram := Parse.programOf_relabeled ρ room
    (ParseState.ofTokens ts).cursor.rest.length (.ofTokens ts)
  unfold ofTokens Parse.program
  rw [hstate, hlength, hprogram]
  simp only [relabeled, Cursor.position, ParseState.relabeled, Cursor.relabeled, List.length_map]

end LoxScript
