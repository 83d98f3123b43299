import LoxScript.Proofs.Grammar.Boundary
import LoxScript.Proofs.Grammar.Construction

/-!
# Where the tokens of a tree come from

A tree is made of the tokens that are read: every operator in it is one of them, every name is one of
them and an identifier, and every literal is either that of a word or the value of a number or a text
among them. The one literal that stands for no token, the condition of a loop that has none, is a truth
value as well. This holds of every statement that is read, whatever had to be dropped around it
(`drawnFromAll_ofTokens`).
-/

namespace LoxScript

variable {T : Token → Prop}

/-- A name is an identifier among the tokens. -/
def Token.NamedIn (T : Token → Prop) (t : Token) : Prop := T t ∧ t.kind = .identifier

/-- A value is that of a word, or of a number or a text among the tokens. -/
def Value.DrawnFrom (T : Token → Prop) : Value → Prop
  | .nil | .bool _ => True
  | v => ∃ t, T t ∧ (t.kind = .number ∨ t.kind = .text) ∧ v = t.literal

namespace Expr

/-- The expression is made of tokens that satisfy `T`. -/
def DrawnFrom (T : Token → Prop) : Expr → Prop
  | literal v _ => v.DrawnFrom T
  | unary op e _ => T op ∧ e.DrawnFrom T
  | binary l op r _ | logical l op r _ => T op ∧ l.DrawnFrom T ∧ r.DrawnFrom T
  | grouping e _ => e.DrawnFrom T
  | read name _ => name.NamedIn T
  | assign name e _ => name.NamedIn T ∧ e.DrawnFrom T
  | malformed _ _ => True

/-- An operation is drawn from its operator and its operands. -/
theorem drawnFrom_join {tier : Tier} {op : Token} {l r : Expr} (hop : T op) (hl : l.DrawnFrom T)
    (hr : r.DrawnFrom T) : (tier.join l op r).DrawnFrom T := by
  unfold Tier.join
  split
  · exact ⟨hop, hl, hr⟩
  · exact ⟨hop, hl, hr⟩

/-- What a token is by itself is drawn from that token. -/
theorem drawnFrom_ofToken? {t : Token} {e : Expr} (ht : T t) (h : ofToken? t = some e) :
    e.DrawnFrom T := by
  have hliteral (hk : t.kind = .number ∨ t.kind = .text) : t.literal.DrawnFrom T := by
    unfold Value.DrawnFrom
    split
    · trivial
    · trivial
    · exact ⟨t, ht, hk, rfl⟩
  unfold ofToken? at h
  split at h
  · cases h
    trivial
  · cases h
    trivial
  · cases h
    trivial
  · next hk =>
    cases h
    exact hliteral (.inl hk)
  · next hk =>
    cases h
    exact hliteral (.inr hk)
  · next hk =>
    cases h
    exact ⟨ht, hk⟩
  · cases h

end Expr

namespace Stmt

mutual

/-- The statement is made of tokens that satisfy `T`. -/
def DrawnFrom (T : Token → Prop) : Stmt → Prop
  | expression e _ | print e _ => e.DrawnFrom T
  | declare name first _ => name.NamedIn T ∧ ∀ e, first = some e → e.DrawnFrom T
  | block body _ => DrawnFromAll T body
  | ifThen c s _ | loop c s _ => c.DrawnFrom T ∧ s.DrawnFrom T
  | ifElse c s t _ => c.DrawnFrom T ∧ s.DrawnFrom T ∧ t.DrawnFrom T
  | malformed _ _ => True

/-- The statements are made of tokens that satisfy `T`. -/
def DrawnFromAll (T : Token → Prop) : List Stmt → Prop
  | [] => True
  | s :: ss => s.DrawnFrom T ∧ DrawnFromAll T ss

end

end Stmt

/-- All clauses that are present are made of tokens that satisfy `T`. -/
structure ForClauses.DrawnFrom (T : Token → Prop) (clauses : ForClauses) : Prop where
  first : ∀ s, clauses.first = some s → s.DrawnFrom T
  condition : ∀ e, clauses.condition = some e → e.DrawnFrom T
  step : ∀ e, clauses.step = some e → e.DrawnFrom T

/-- What is put around the clauses of a "for" loop holds no other tokens. -/
theorem Stmt.drawnFrom_forLoop {line : Int} {clauses : ForClauses} {body : Stmt}
    (hc : clauses.DrawnFrom T) (hb : body.DrawnFrom T) :
    (Stmt.forLoop line clauses body).DrawnFrom T := by
  have hcondition : (clauses.condition.getD (.literal (.bool true) line)).DrawnFrom T := by
    cases h : clauses.condition with
    | none => trivial
    | some e => exact hc.condition e h
  have hwhole {turn : Stmt} (hturn : turn.DrawnFrom T) : (Stmt.loop
      (clauses.condition.getD (.literal (.bool true) line)) turn line).DrawnFrom T :=
    ⟨hcondition, hturn⟩
  unfold forLoop
  cases hstep : clauses.step with
  | none =>
    cases hfirst : clauses.first with
    | none => exact hwhole hb
    | some s => exact ⟨hc.first s hfirst, hwhole hb, trivial⟩
  | some e =>
    have hturn : (Stmt.block [body, .expression e e.line] line).DrawnFrom T :=
      ⟨hb, hc.step e hstep, trivial⟩
    cases hfirst : clauses.first with
    | none => exact hwhole hturn
    | some s => exact ⟨hc.first s hfirst, hwhole hturn, trivial⟩

/-! ## Steps that draw on the tokens to come -/

/-- All tokens to come satisfy `T`. -/
def ParseState.Fed (T : Token → Prop) (s : ParseState) : Prop := ∀ t ∈ s.cursor.rest, T t

open ParseState

/-- Reading brings in no tokens. -/
theorem ParseState.Reads.fed {s s' : ParseState} (h : Reads s s') (hs : s.Fed T) : s'.Fed T := by
  obtain ⟨ts, hts, -⟩ := h.cursor
  intro t ht
  refine hs t ?_
  rw [hts]
  exact List.mem_append_right _ ht

namespace Parse

variable {α β : Type}

/-- As long as all tokens to come satisfy `T`, every result satisfies `Q`. -/
def Draws (T : Token → Prop) (p : Parse α) (Q : α → Prop) : Prop :=
  ∀ s, s.Fed T → ∀ a s₁, p s = .ok a s₁ → Q a ∧ s₁.Fed T

namespace Draws

variable {p : Parse α} {f : α → Parse β} {Q : α → Prop} {R : β → Prop}

theorem pure {a : α} (h : Q a) : Draws T (pure a) Q := by
  intro s hs a' s₁ h'
  cases h'
  exact ⟨h, hs⟩

theorem bind (hp : Draws T p Q) (hf : ∀ a, Q a → Draws T (f a) R) : Draws T (p >>= f) R := by
  intro s hs b s₂ h
  obtain ⟨a, s₁, h₁, h₂⟩ := bind_eq_ok.mp h
  obtain ⟨ha, hs₁⟩ := hp s hs a s₁ h₁
  exact hf a ha s₁ hs₁ b s₂ h₂

/-- A step that only reads on draws on nothing. -/
theorem of_frames (h : Frames Reads p) : Draws T p fun _ => True :=
  fun _ hs _ _ hp => ⟨trivial, (h.of_ok hp).fed hs⟩

theorem fail (cause : SyntaxCause) (Q : α → Prop) : Draws T (fail cause) Q := by
  intro s hs a s₁ h
  cases h

theorem look : Draws T look fun o => ∀ t, o = some t → T t := by
  intro s hs o s₁ h
  cases h
  refine ⟨fun t ht => hs t ?_, hs⟩
  exact List.mem_of_mem_head? ht

theorem skip : Draws T skip fun _ => True := of_frames frames_skip

theorem remaining : Draws T remaining fun _ => True := of_frames fun s => refl_of Reads s

theorem note (e : SyntaxError) : Draws T (note e) fun _ => True := of_frames fun s => reads_note s e

theorem accept (kinds : List TokenKind) :
    Draws T (accept kinds) fun o => ∀ t, o = some t → T t ∧ t.kind ∈ kinds := by
  rw [accept_eq]
  refine look.bind fun o ho => ?_
  cases o with
  | none => exact .pure (by simp)
  | some t =>
    dsimp only
    split
    · next hk => exact skip.bind fun _ _ => .pure (by simpa using ⟨ho t rfl, by simpa using hk⟩)
    · exact .pure (by simp)

theorem expect (kind : TokenKind) (cause : SyntaxCause) :
    Draws T (expect kind cause) fun t => T t ∧ t.kind = kind := by
  rw [expect_eq]
  refine look.bind fun o ho => ?_
  cases o with
  | none => exact .fail _ _
  | some t =>
    dsimp only
    split
    · next hk => exact skip.bind fun _ _ => .pure ⟨ho t rfl, hk⟩
    · exact .fail _ _

end Draws

/-! ## Expressions -/

section

variable {operand inner nested primary target value : Parse Expr}

/-- A primary expression is drawn from the tokens that come. -/
theorem draws_primaryOf (hi : Draws T inner (Expr.DrawnFrom T)) :
    Draws T (primaryOf inner) (Expr.DrawnFrom T) := by
  rw [primaryOf_eq]
  refine Draws.look.bind fun o ho => ?_
  cases o with
  | none => exact .fail _ _
  | some t =>
    dsimp only
    split
    · next e he => exact Draws.skip.bind fun _ _ => .pure (Expr.drawnFrom_ofToken? (ho t rfl) he)
    · split
      · exact Draws.skip.bind fun _ _ => hi.bind fun e he => (Draws.expect _ _).bind fun _ _ =>
          .pure he
      · exact .fail _ _

theorem draws_unaryOf (hn : Draws T nested (Expr.DrawnFrom T))
    (hp : Draws T primary (Expr.DrawnFrom T)) :
    Draws T (unaryOf nested primary) (Expr.DrawnFrom T) := by
  refine (Draws.accept _).bind fun o ho => ?_
  cases o with
  | none => exact hp
  | some op => exact hn.bind fun e he => .pure ⟨(ho op rfl).1, he⟩

/-- A fold of operators adds tokens to come to its operand on the left. -/
theorem draws_climb (ho : Draws T operand (Expr.DrawnFrom T)) (fuel least : Nat) {left : Expr}
    (hl : left.DrawnFrom T) : Draws T (climb operand fuel least left) (Expr.DrawnFrom T) := by
  induction fuel generalizing least left with
  | zero => exact .pure hl
  | succ fuel ih =>
    rw [climb_succ]
    refine Draws.look.bind fun o hop => ?_
    cases o with
    | none => exact .pure hl
    | some t =>
      dsimp only
      split
      · exact .pure hl
      · split
        · exact .pure hl
        · exact Draws.skip.bind fun _ _ => ho.bind fun first hf => (ih _ hf).bind fun right hr =>
            ih _ (Expr.drawnFrom_join (hop t rfl) hl hr)

theorem draws_tiers (ho : Draws T operand (Expr.DrawnFrom T)) (least : Nat) :
    Draws T (tiers operand least) (Expr.DrawnFrom T) :=
  ho.bind fun _ hl => Draws.remaining.bind fun _ _ => draws_climb ho _ _ hl

theorem draws_assignmentOf (ht : Draws T target (Expr.DrawnFrom T))
    (hv : Draws T value (Expr.DrawnFrom T)) :
    Draws T (assignmentOf target value) (Expr.DrawnFrom T) := by
  refine ht.bind fun left hl => (Draws.accept _).bind fun o _ => ?_
  cases o with
  | none => exact .pure hl
  | some sign =>
    refine hv.bind fun e he => ?_
    split
    · exact .pure ⟨hl, he⟩
    · exact (Draws.note _).bind fun _ _ => .pure hl

mutual

theorem draws_unary (room : Nat) : Draws T (unary room) (Expr.DrawnFrom T) := by
  cases room with
  | zero => exact .fail _ _
  | succ room =>
    exact draws_unaryOf (draws_unary room) (draws_primaryOf (draws_expression room))

/-- No expression contains anything that does not come from a token. -/
theorem draws_expression (room : Nat) : Draws T (expression room) (Expr.DrawnFrom T) := by
  cases room with
  | zero => exact .fail _ _
  | succ room => exact draws_assignmentOf (draws_tiers (draws_unary room) 1) (draws_expression room)

end

end

/-! ## Statements -/

section

variable {value : Parse Expr} {nested declaration statement : Parse Stmt}

theorem draws_expressionStatement (hv : Draws T value (Expr.DrawnFrom T)) :
    Draws T (expressionStatement value) (Stmt.DrawnFrom T) :=
  hv.bind fun _ he => (Draws.expect _ _).bind fun _ _ => .pure he

theorem draws_variableDeclaration (hv : Draws T value (Expr.DrawnFrom T)) :
    Draws T (variableDeclaration value) (Stmt.DrawnFrom T) := by
  refine (Draws.expect _ _).bind fun name hname => (Draws.accept _).bind fun o _ => ?_
  cases o with
  | none =>
    exact .bind (Q := (· = none)) (.pure rfl) fun first hf => (Draws.expect _ _).bind fun _ _ =>
      .pure ⟨hname, by simp [hf]⟩
  | some _ =>
    exact hv.bind fun e he => .bind (Q := (· = some e)) (.pure rfl) fun first hf =>
      (Draws.expect _ _).bind fun _ _ => .pure ⟨hname, by simpa [hf] using he⟩

theorem draws_declarationOf (hv : Draws T value (Expr.DrawnFrom T))
    (hs : Draws T statement (Stmt.DrawnFrom T)) :
    Draws T (declarationOf value statement) (Stmt.DrawnFrom T) := by
  refine (Draws.accept _).bind fun o _ => ?_
  cases o with
  | none => exact hs
  | some _ => exact draws_variableDeclaration hv

theorem draws_declarations (hd : Draws T declaration (Stmt.DrawnFrom T)) (fuel : Nat) :
    Draws T (declarations declaration fuel) (Stmt.DrawnFromAll T) := by
  induction fuel with
  | zero => exact .pure trivial
  | succ fuel ih =>
    refine Draws.look.bind fun o _ => ?_
    cases o with
    | none => exact .pure trivial
    | some t =>
      dsimp only
      split
      · exact .pure trivial
      · exact hd.bind fun s hs => ih.bind fun later hl => .pure ⟨hs, hl⟩

theorem draws_optional (hv : Draws T value (Expr.DrawnFrom T)) (kind : TokenKind) :
    Draws T (optional value kind) fun o => ∀ e, o = some e → e.DrawnFrom T := by
  refine Draws.look.bind fun o _ => ?_
  cases o with
  | none => exact hv.bind fun e he => .pure (by simpa using he)
  | some t =>
    dsimp only
    split
    · exact .pure (by simp)
    · exact hv.bind fun e he => .pure (by simpa using he)

theorem draws_firstClause (hv : Draws T value (Expr.DrawnFrom T)) :
    Draws T (firstClause value) fun o => ∀ s, o = some s → s.DrawnFrom T := by
  refine (Draws.accept _).bind fun o _ => ?_
  cases o with
  | some _ => exact .pure (by simp)
  | none =>
    refine (Draws.accept _).bind fun o _ => ?_
    cases o with
    | some _ => exact (draws_variableDeclaration hv).bind fun s hs => .pure (by simpa using hs)
    | none => exact (draws_expressionStatement hv).bind fun s hs => .pure (by simpa using hs)

theorem draws_forClauses (hv : Draws T value (Expr.DrawnFrom T)) :
    Draws T (forClauses value) (ForClauses.DrawnFrom T) :=
  (Draws.expect _ _).bind fun _ _ => (draws_firstClause hv).bind fun _ hfirst =>
    (draws_optional hv _).bind fun _ hcondition => (Draws.expect _ _).bind fun _ _ =>
      (draws_optional hv _).bind fun _ hstep => (Draws.expect _ _).bind fun _ _ =>
        .pure ⟨hfirst, hcondition, hstep⟩

/-- A statement holds no other tokens than its parts do. -/
theorem draws_statementOf (hv : Draws T value (Expr.DrawnFrom T))
    (hn : Draws T nested (Stmt.DrawnFrom T)) :
    Draws T (statementOf value nested) (Stmt.DrawnFrom T) := by
  refine (Draws.accept _).bind fun o _ => ?_
  cases o with
  | none => exact draws_expressionStatement hv
  | some t =>
    dsimp only
    split
    · exact (draws_forClauses hv).bind fun c hc => hn.bind fun body hb =>
        .pure (Stmt.drawnFrom_forLoop hc hb)
    · refine (Draws.expect _ _).bind fun _ _ => hv.bind fun c hc => (Draws.expect _ _).bind
        fun _ _ => hn.bind fun body hb => (Draws.accept _).bind fun o _ => ?_
      cases o with
      | none => exact .pure ⟨hc, hb⟩
      | some _ => exact hn.bind fun other ho => .pure ⟨hc, hb, ho⟩
    · exact hv.bind fun e he => (Draws.expect _ _).bind fun _ _ => .pure he
    · exact (Draws.expect _ _).bind fun _ _ => hv.bind fun c hc => (Draws.expect _ _).bind
        fun _ _ => hn.bind fun body hb => .pure ⟨hc, hb⟩
    · refine .bind (Q := Stmt.DrawnFromAll T) ?_ fun body hb => .pure hb
      exact Draws.remaining.bind fun n _ => (draws_declarations (draws_declarationOf hv hn) n).bind
        fun body hb => (Draws.expect _ _).bind fun _ _ => .pure hb

theorem draws_statement (room : Nat) : Draws T (Parse.statement room) (Stmt.DrawnFrom T) := by
  induction room with
  | zero => exact .fail _ _
  | succ room ih => exact draws_statementOf (draws_expression room) ih

theorem draws_declaration (room : Nat) : Draws T (Parse.declaration room) (Stmt.DrawnFrom T) :=
  draws_declarationOf (draws_expression room) (draws_statement room)

end

/-- Recovering brings in no tokens. -/
theorem fed_recover {s : ParseState} (h : s.Fed T) (e : SyntaxError) : (s.recover e).Fed T := by
  intro t ht
  rw [rest_recover] at ht
  exact h t (Cursor.mem_of_mem_resume ht)

/-- What is kept of a program is made of its tokens, whatever had to be dropped. -/
theorem drawnFromAll_programOf (room fuel : Nat) {s : ParseState} (hs : s.Fed T) :
    Stmt.DrawnFromAll T (programOf (declaration room) fuel s).1 := by
  induction fuel generalizing s with
  | zero => trivial
  | succ fuel ih =>
    unfold programOf
    split
    · trivial
    · cases h : declaration room s with
      | ok d s₁ =>
        obtain ⟨hd, hs₁⟩ := draws_declaration room s hs d s₁ h
        exact ⟨hd, ih hs₁⟩
      | error e s₁ =>
        exact ih (fed_recover (((composed_declaration room).frames.of_error h).fed hs) e)

end Parse

/-- The statements that are read from tokens are made of these tokens. -/
theorem drawnFromAll_ofTokens (room : Nat) {ts : List Token} (h : ∀ t ∈ ts, T t) :
    Stmt.DrawnFromAll T (Program.ofTokens room ts).statements := by
  refine Parse.drawnFromAll_programOf room _ fun t ht => h t ?_
  rw [rest_ofTokens] at ht
  exact (List.takeWhile_subset _) ht

end LoxScript
