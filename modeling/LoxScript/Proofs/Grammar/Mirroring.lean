import LoxScript.Proofs.Grammar.Concatenation
import LoxScript.Proofs.Grammar.Tape

/-!
# Both ways of reading agree

On a tape that is in order, every construct of the grammar ends as it does at the state for which
the tape stands, with the same result or the same syntax error, and leaves the tape in order
(`Tape.Mirrors`). So no token is ever looked up where there is none, no loop needs more turns than it
is granted, and the flags agree with what was reported, be there as many errors as there may.
-/

namespace LoxScript

open EStateM (Result)

namespace Tape

variable {α β : Type} {t : Tape} {u : Token} {us : List Token}

/-! ## Constructs that agree -/

/-- The outcome on a tape is that at a state: there is the same result or the same syntax error, the
tape stands for the state, its tokens are the given ones, and it is in order. -/
inductive Mirrored (ts : List Token) :
    Result SyntaxError ParseState α → Result Fault Tape α → Prop where
  | ok {a : α} {t : Tape} (htokens : t.tokens = ts) (h : t.InOrder) :
      Mirrored ts (.ok a t.state) (.ok a t)
  | error {e : SyntaxError} {t : Tape} (htokens : t.tokens = ts) (h : t.InOrder) :
      Mirrored ts (.error e t.state) (.error (.broken e) t)

/-- On this tape the second step does what the first one does at the state for which it stands. -/
def MirrorsAt (t : Tape) (p : Parse α) (q : Step α) : Prop := Mirrored t.tokens (p t.state) (q t)

/-- So it does on every tape that is in order. -/
def Mirrors (p : Parse α) (q : Step α) : Prop := ∀ t : Tape, t.InOrder → MirrorsAt t p q

section

variable {p : Parse α} {q : Step α} {f : α → Parse β} {g : α → Step β}

/-- Two steps in a row agree if the first ones do, and the second ones do on the tape behind them.
-/
theorem MirrorsAt.bind (hp : MirrorsAt t p q)
    (hf : ∀ a t₁, p t.state = .ok a t₁.state → t₁.tokens = t.tokens → t₁.InOrder →
      MirrorsAt t₁ (f a) (g a)) : MirrorsAt t (p >>= f) (q >>= g) := by
  unfold MirrorsAt at hp ⊢
  generalize hr : p t.state = r at hp
  generalize hr' : q t = r' at hp
  cases hp with
  | @ok a t₁ htokens h =>
    rw [bind_of_ok hr, bind_of_ok hr', ← htokens]
    exact hf a t₁ hr htokens h
  | error htokens h =>
    rw [bind_of_error hr, bind_of_error hr']
    exact .error htokens h

namespace Mirrors

/-- Where a step always has a result, the step on a tape has the same one. -/
theorem exists_of_total {g : ParseState → α × ParseState}
    (hq : Mirrors (fun s => .ok (g s).1 (g s).2) q) (h : t.InOrder) :
    ∃ t₁, q t = .ok (g t.state).1 t₁ ∧ t₁.state = (g t.state).2 ∧ t₁.tokens = t.tokens ∧
      t₁.InOrder := by
  have hmirrored : Mirrored t.tokens (.ok (g t.state).1 (g t.state).2) (q t) := hq t h
  generalize (g t.state).2 = s at hmirrored
  generalize q t = r at hmirrored
  cases hmirrored with
  | @ok _ t₁ htokens h₁ => exact ⟨t₁, rfl, rfl, htokens, h₁⟩

theorem pure (a : α) : Mirrors (pure a) (pure a) := fun _ h => .ok rfl h

theorem bind (hp : Mirrors p q) (hf : ∀ a, Mirrors (f a) (g a)) :
    Mirrors (p >>= f) (q >>= g) :=
  fun t h => (hp t h).bind fun a t₁ _ _ h₁ => hf a t₁ h₁

/-- What is looked at by the cursor is looked up on the tape. -/
theorem looking (look : Cursor → α) (f : α → β)
    (hq : ∀ t : Tape, t.InOrder → q t = .ok (look t.state.cursor) t) :
    Mirrors (fun s => .ok (f (look s.cursor)) s) (q >>= fun a => Pure.pure (f a)) := by
  intro t h
  unfold MirrorsAt
  rw [bind_of_ok (hq t h)]
  exact .ok rfl h

theorem fail (cause : SyntaxCause) : Mirrors (Parse.fail cause : Parse α) (Tape.fail cause) := by
  intro t h
  unfold MirrorsAt
  rw [h.fail cause]
  exact .error rfl h

/-- An error is noted in both ways of reading, and leaves the flags of the tape in agreement. -/
theorem note (e : SyntaxError) : Mirrors (Parse.note e) (Tape.note e) := fun t h =>
  .ok (t := { t with failed := true, noted := t.noted ++ [e] }) rfl (h.noted e)

theorem expect (kind : TokenKind) (cause : SyntaxCause) :
    Mirrors (Parse.expect kind cause) (Tape.expect kind cause) := by
  intro t h
  unfold MirrorsAt
  rcases Parse.next_cases (·.kind = kind) t.state.cursor.rest with ⟨u, us, hr, hk⟩ | hother
  · rw [Parse.expect_of_kind hr hk, h.expect_of_kind hr hk, ← h.state_next hr]
    exact .ok rfl (h.next hr)
  · rw [Parse.expect_of_other hother, h.expect_of_other hother]
    exact .error rfl h

end Mirrors

end

section

variable {kind : TokenKind} {kinds : List TokenKind} {p : Parse α} {q : Step α}
  {f : Option Token → Parse α} {g : Bool → Step α}

/-- Which way to go on depends on whether a token is accepted. -/
theorem MirrorsAt.accept (h : t.InOrder) (hnone : MirrorsAt t (f none) (g false))
    (hsome : ∀ u us, t.state.cursor.rest = u :: us → u.kind ∈ kinds → t.next.InOrder →
      MirrorsAt t.next (f (some u)) (g true)) :
    MirrorsAt t (Parse.accept kinds >>= f) (Tape.accept kinds >>= g) := by
  unfold MirrorsAt
  rcases Parse.next_cases (·.kind ∈ kinds) t.state.cursor.rest with ⟨u, us, hr, hk⟩ | hother
  · rw [bind_of_ok (Parse.accept_of_mem hr hk), bind_of_ok (h.accept_of_mem hr hk),
      ← h.state_next hr]
    exact hsome u us hr hk (h.next hr)
  · rw [bind_of_ok (Parse.accept_of_other hother), bind_of_ok (h.accept_of_other hother)]
    exact hnone

/-- Kinds can be tried one after another. -/
theorem MirrorsAt.accept_cons (h : t.InOrder)
    (hfirst : ∀ u us, t.state.cursor.rest = u :: us → u.kind = kind →
      MirrorsAt t.next (f (some u)) (g true))
    (hother : MirrorsAt t (Parse.accept kinds >>= f) (g false)) :
    MirrorsAt t (Parse.accept (kind :: kinds) >>= f) (Tape.accept [kind] >>= g) := by
  unfold MirrorsAt
  rcases Parse.next_cases (·.kind = kind) t.state.cursor.rest with ⟨u, us, hr, hk⟩ | hne
  · have hmem : u.kind ∈ kind :: kinds := by rw [hk]; exact List.mem_cons_self
    rw [bind_of_ok (Parse.accept_of_mem hr hmem),
      bind_of_ok (h.accept_of_mem hr (List.mem_singleton.mpr hk)), ← h.state_next hr]
    exact hfirst u us hr hk
  · have hskip : Parse.accept (kind :: kinds) t.state = Parse.accept kinds t.state := by
      unfold Parse.accept
      split
      · rfl
      · next u us hr =>
        have hk : u.kind ≠ kind := hne u (by rw [hr]; rfl)
        simp [hk]
    have hfalse : Tape.accept [kind] t = .ok false t :=
      h.accept_of_other fun u hu hmem => hne u hu (List.mem_singleton.mp hmem)
    rw [bind_congr_state hskip, bind_of_ok hfalse]
    exact hother

theorem MirrorsAt.accept_nil (h : MirrorsAt t (f none) q) :
    MirrorsAt t (Parse.accept [] >>= f) q := by
  unfold MirrorsAt
  rw [bind_of_ok (Parse.accept_of_other (by simp))]
  exact h

/-- Behind a token that was accepted, that token is the one read last. -/
theorem MirrorsAt.behind {g : Token → Step α} (h : t.InOrder) (hr : t.state.cursor.rest = u :: us)
    (hq : Mirrors p (g u)) : MirrorsAt t.next p (Tape.previous >>= g) := by
  unfold MirrorsAt
  rw [bind_of_ok (h.previous_next hr)]
  exact hq t.next (h.next hr)

end

/-! ## Expressions -/

section

variable {inner operand nested primary target value : Parse Expr}
  {inner' operand' nested' primary' target' value' : Step Expr}

/-- Kinds of tokens that are expressions by themselves. -/
theorem MirrorsAt.atom {kinds : List TokenKind} {q : Step Expr} (e : Token → Expr) (h : t.InOrder)
    (hatom : ∀ u, u.kind ∈ kinds → Expr.ofToken? u = some (e u))
    (hother : (∀ u, t.state.cursor.rest.head? = some u → u.kind ∉ kinds) →
      MirrorsAt t (Parse.primaryOf inner) q) :
    MirrorsAt t (Parse.primaryOf inner)
      (Tape.accept kinds >>= fun found =>
        if found = true then Pure.pure (e t.state.cursor.current) else q) := by
  rcases Parse.next_cases (·.kind ∈ kinds) t.state.cursor.rest with ⟨u, us, hr, hk⟩ | hne
  · unfold MirrorsAt
    rw [Parse.primaryOf_of_atom hr (hatom u hk), choose_of_true (h.accept_of_mem hr hk),
      Cursor.current_of_cons hr, ← h.state_next hr]
    exact .ok rfl (h.next hr)
  · unfold MirrorsAt
    rw [choose_of_false (h.accept_of_other hne)]
    exact hother hne

/-- On a tape, the kinds of primary expressions are tried one after another. -/
theorem mirrors_primaryOf (hi : Mirrors inner inner') :
    Mirrors (Parse.primaryOf inner) (primaryOf inner') := by
  intro t h
  unfold MirrorsAt primaryOf
  rw [bind_of_ok h.current]
  refine MirrorsAt.atom (fun u => .literal (.bool false) u.line) h (by grind [Expr.ofToken?])
    fun hfalse => ?_
  refine MirrorsAt.atom (fun u => .literal (.bool true) u.line) h (by grind [Expr.ofToken?])
    fun htrue => ?_
  refine MirrorsAt.atom (fun u => .literal .nil u.line) h (by grind [Expr.ofToken?])
    fun hnil => ?_
  refine MirrorsAt.atom (fun u => .literal u.literal u.line) h (by grind [Expr.ofToken?])
    fun hliteral => ?_
  refine MirrorsAt.atom (fun u => .read u u.line) h (by grind [Expr.ofToken?]) fun hname => ?_
  have hnone : ∀ u, t.state.cursor.rest.head? = some u → Expr.ofToken? u = none := by
    intro u hu
    have hkinds := And.intro (hfalse u hu) (And.intro (htrue u hu) (hnil u hu))
    have hkinds' := And.intro (hliteral u hu) (hname u hu)
    unfold Expr.ofToken?
    grind
  rcases Parse.next_cases (·.kind = .leftParen) t.state.cursor.rest with ⟨u, us, hr, hk⟩ | hne
  · have hatom : Expr.ofToken? u = none := hnone u (by rw [hr]; rfl)
    unfold MirrorsAt
    rw [Parse.primaryOf_of_parentheses hr hatom hk,
      choose_of_true (h.accept_of_mem hr (List.mem_singleton.mpr hk)),
      Cursor.current_of_cons hr, ← h.state_next hr]
    exact (hi.bind fun e => (Mirrors.expect _ _).bind fun _ => .pure _) t.next (h.next hr)
  · unfold MirrorsAt
    rw [Parse.primaryOf_of_other fun u hu => ⟨hnone u hu, hne u hu⟩,
      choose_of_false (h.accept_of_other fun u hu hmem => hne u hu (List.mem_singleton.mp hmem))]
    exact .error rfl h

/-- Behind a prefix operator, the tape has to look back for it. -/
theorem mirrors_unaryOf (hn : Mirrors nested nested') (hp : Mirrors primary primary') :
    Mirrors (Parse.unaryOf nested primary) (unaryOf nested' primary') := by
  intro t h
  refine .accept h (hp t h) fun op us hr _ _ => ?_
  exact .behind h hr (hn.bind fun e => .pure _)

/-- With one turn more than there are tokens to come, all operators are folded. -/
theorem mirrorsAt_climb (hc : Parse.Composed operand) (ho : Mirrors operand operand')
    {fuel least : Nat} {left : Expr} (h : t.InOrder)
    (hfuel : t.state.cursor.rest.length < fuel) :
    MirrorsAt t (Parse.climbAll operand least left) (climb operand' fuel least left) := by
  induction fuel generalizing t least left with
  | zero => omega
  | succ fuel ih =>
    unfold MirrorsAt climb
    rw [bind_of_ok h.current]
    by_cases hstop : Parse.EndsTier least t.state.cursor.rest
    · rw [Parse.climbAll_of_stop hstop]
      cases hk : Tier.of? t.state.cursor.current.kind with
      | none => exact .ok rfl h
      | some tier =>
        -- an end mark is of no tier, so that the operator is a token to come
        have htier : Parse.tierOf? t.state.cursor.rest = some tier := by
          cases hr : t.state.cursor.rest with
          | nil =>
            rw [h.kind_of_end hr] at hk
            cases hk
          | cons u us =>
            rw [Cursor.current, hr] at hk
            exact hk
        dsimp only
        rw [if_pos (hstop tier htier)]
        exact .ok rfl h
    · obtain ⟨tier, u, us, hr, hk, hl⟩ := Parse.operator_of_not_endsTier hstop
      rw [Parse.climbAll_of_fold hc hr hk hl, Parse.tiers_eq, bind_assoc, ← h.state_next hr,
        Cursor.current_of_cons hr, hk]
      dsimp only
      rw [if_neg (Nat.not_lt.mpr hl), bind_of_ok (h.advance_of_cons hr)]
      rw [hr, List.length_cons] at hfuel
      -- at least the operator is passed, so that the turns left are enough for both climbs
      refine (ho t.next (h.next hr)).bind fun first t₁ hfirst _ h₁ => ?_
      have hle₁ := (hc.frames.of_ok hfirst).length_le
      rw [h.rest_next hr] at hle₁
      refine (ih h₁ (by omega)).bind fun right t₂ hright _ h₂ => ?_
      have hle₂ := ((Parse.composed_climbAll hc _ _).frames.of_ok hright).length_le
      exact ih h₂ (by omega)

/-- A loop that is granted a turn for each token folds all operators. -/
theorem mirrors_tiers (hc : Parse.Composed operand) (ho : Mirrors operand operand') (least : Nat) :
    Mirrors (Parse.tiers operand least) (tiers operand' least) := by
  rw [Parse.tiers_eq]
  exact ho.bind fun left t h => mirrorsAt_climb hc ho h (length_rest_lt_turns t)

/-- An assignment to what is no variable is noted in both ways. -/
theorem mirrors_assignmentOf (ht : Mirrors target target') (hv : Mirrors value value') :
    Mirrors (Parse.assignmentOf target value) (assignmentOf target' value') := by
  refine ht.bind fun left t h => .accept h (Mirrors.pure left t h) fun sign us hr _ _ => ?_
  refine .behind h hr (hv.bind fun e => ?_)
  cases left <;> first | exact .pure _ | exact .bind (.note _) fun _ => .pure _

mutual

theorem mirrors_unary (room : Nat) : Mirrors (Parse.unary room) (unary room) := by
  cases room with
  | zero => exact .fail _
  | succ room =>
    exact mirrors_unaryOf (mirrors_unary room) (mirrors_primaryOf (mirrors_expression room))

/-- Expressions are read alike in both ways, however little room there is. -/
theorem mirrors_expression (room : Nat) : Mirrors (Parse.expression room) (expression room) := by
  cases room with
  | zero => exact .fail _
  | succ room =>
    exact mirrors_assignmentOf
      (mirrors_tiers (Parse.composed_unary room) (mirrors_unary room) 1) (mirrors_expression room)

end

end

/-! ## Statements -/

section

variable {value : Parse Expr} {nested declaration : Parse Stmt}
  {value' : Step Expr} {nested' declaration' : Step Stmt}

theorem mirrors_expressionStatement (hv : Mirrors value value') :
    Mirrors (Parse.expressionStatement value) (expressionStatement value') :=
  hv.bind fun _ => (Mirrors.expect _ _).bind fun _ => .pure _

theorem mirrors_variableDeclaration (hv : Mirrors value value') :
    Mirrors (Parse.variableDeclaration value) (variableDeclaration value') := by
  refine (Mirrors.expect _ _).bind fun name t h => ?_
  have hlater : ∀ first, Mirrors
      (Parse.expect .semicolon (.expectSemicolon .declaration) >>= fun _ =>
        pure (Stmt.declare name first name.line))
      (expect .semicolon (.expectSemicolon .declaration) >>= fun _ =>
        pure (Stmt.declare name first name.line)) :=
    fun first => (Mirrors.expect _ _).bind fun _ => .pure _
  exact .accept h (hlater none t h) fun _ _ _ _ hnext =>
    (hv.bind fun e => hlater (some e)) t.next hnext

theorem mirrors_declarationOf (hv : Mirrors value value') (hn : Mirrors nested nested') :
    Mirrors (Parse.declarationOf value nested) (declarationOf value' nested') := fun t h =>
  .accept h (hn t h) fun _ _ _ _ hnext => mirrors_variableDeclaration hv t.next hnext

/-- With one turn more than there are tokens to come, all declarations of a block are read. -/
theorem mirrorsAt_declarations (hp : Parse.Consumes declaration)
    (hd : Mirrors declaration declaration') {fuel : Nat} (h : t.InOrder)
    (hfuel : t.state.cursor.rest.length < fuel) :
    MirrorsAt t (Parse.declarationsAll declaration) (declarations declaration' fuel) := by
  induction fuel generalizing t with
  | zero => omega
  | succ fuel ih =>
    unfold MirrorsAt declarations
    rcases Parse.next_cases (·.kind = .rightBrace) t.state.cursor.rest with ⟨u, us, hr, hk⟩ | hother
    · have hstop : ∀ v, t.state.cursor.rest.head? = some v → v.kind = .rightBrace := by
        intro v hv
        rw [hr] at hv
        cases hv
        exact hk
      rw [Parse.declarationsAll_of_stop hstop, choose_of_true (h.check_of_kind hr hk)]
      exact .ok rfl h
    rw [choose_of_false (h.check_of_other hother)]
    cases hr : t.state.cursor.rest with
    | nil =>
      rw [Parse.declarationsAll_of_stop (by simp [hr]), choose_of_true (h.atEnd_of_end hr)]
      exact .ok rfl h
    | cons u us =>
      have hk : u.kind ≠ .rightBrace := hother u (by rw [hr]; rfl)
      rw [Parse.declarationsAll_of_go hp hr hk, choose_of_false (h.atEnd_of_cons hr)]
      refine (hd t h).bind fun d t₁ hread _ h₁ => ?_
      have hlt := hp t.state d t₁.state hread
      exact (ih h₁ (by omega)).bind fun later t₂ _ _ h₂ => Mirrors.pure _ t₂ h₂

/-- A block is read alike if its declarations are, as each of them takes at least one token. -/
theorem mirrors_blockOf (hp : Parse.Consumes declaration) (hd : Mirrors declaration declaration') :
    Mirrors (Parse.blockOf declaration) (blockOf declaration') := by
  rw [Parse.blockOf_eq]
  intro t h
  exact (mirrorsAt_declarations hp hd h (length_rest_lt_turns t)).bind fun body t₁ _ _ h₁ =>
    ((Mirrors.expect _ _).bind fun _ => .pure _) t₁ h₁

/-- A clause is left out in both ways if the token behind it comes. -/
theorem mirrors_optional (hv : Mirrors value value') (kind : TokenKind) :
    Mirrors (Parse.optional value kind) (optional value' kind) := by
  intro t h
  have hread : MirrorsAt t (value >>= fun e => pure (some e)) (value' >>= fun e => pure (some e)) :=
    (hv.bind fun e => .pure (some e)) t h
  unfold MirrorsAt optional
  rcases Parse.next_cases (·.kind = kind) t.state.cursor.rest with ⟨u, us, hr, hk⟩ | hother
  · rw [Parse.optional_of_kind ⟨u, by rw [hr]; rfl, hk⟩, choose_of_true (h.check_of_kind hr hk)]
    exact .ok rfl h
  · rw [Parse.optional_of_other fun ⟨u, hu, hk⟩ => hother u hu hk,
      choose_of_false (h.check_of_other hother)]
    exact hread

/-- The first clause of a loop is a semicolon, a declaration or an expression in both ways. -/
theorem mirrors_firstClause (hv : Mirrors value value') :
    Mirrors (Parse.firstClause value) (firstClause value') := by
  intro t h
  refine .accept h (.accept h ?_ fun _ _ _ _ hnext => ?_) fun _ _ _ _ hnext => ?_
  · exact ((mirrors_expressionStatement hv).bind fun s => .pure (some s)) t h
  · exact ((mirrors_variableDeclaration hv).bind fun s => .pure (some s)) t.next hnext
  · exact Mirrors.pure none t.next hnext

/-- Each of the following is read behind its word. -/
theorem mirrorsAt_printStatement (hv : Mirrors value value') (h : t.InOrder)
    (hr : t.state.cursor.rest = u :: us) :
    MirrorsAt t.next (Parse.printStatement value u.line) (printStatement value') :=
  .behind h hr (hv.bind fun _ => (Mirrors.expect _ _).bind fun _ => .pure _)

theorem mirrorsAt_whileLoop (hv : Mirrors value value') (hn : Mirrors nested nested')
    (h : t.InOrder) (hr : t.state.cursor.rest = u :: us) :
    MirrorsAt t.next (Parse.whileLoop value nested u.line) (whileLoop value' nested') :=
  .behind h hr ((Mirrors.expect _ _).bind fun _ => hv.bind fun _ =>
    (Mirrors.expect _ _).bind fun _ => hn.bind fun _ => .pure _)

theorem mirrorsAt_conditional (hv : Mirrors value value') (hn : Mirrors nested nested')
    (h : t.InOrder) (hr : t.state.cursor.rest = u :: us) :
    MirrorsAt t.next (Parse.conditional value nested u.line) (conditional value' nested') := by
  refine .behind h hr ((Mirrors.expect _ _).bind fun _ => hv.bind fun condition =>
    (Mirrors.expect _ _).bind fun _ => hn.bind fun body t₁ h₁ => ?_)
  exact .accept h₁ (Mirrors.pure _ t₁ h₁) fun _ _ _ _ hnext =>
    (hn.bind fun other => .pure _) t₁.next hnext

theorem mirrorsAt_forLoop (hv : Mirrors value value') (hn : Mirrors nested nested')
    (h : t.InOrder) (hr : t.state.cursor.rest = u :: us) :
    MirrorsAt t.next (Parse.forLoop value nested u.line) (forLoop value' nested') := by
  refine .behind h hr ?_
  unfold Parse.forLoop Parse.forClauses
  simp only [bind_assoc, pure_bind]
  exact (Mirrors.expect _ _).bind fun _ => (mirrors_firstClause hv).bind fun first =>
    (mirrors_optional hv _).bind fun condition => (Mirrors.expect _ _).bind fun _ =>
      (mirrors_optional hv _).bind fun step => (Mirrors.expect _ _).bind fun _ =>
        hn.bind fun body => .pure _

/-- The word that a statement begins with decides how it is read. -/
theorem mirrors_statementOf (hv : Mirrors value value') (hvc : Parse.Composed value)
    (hn : Mirrors nested nested') (hnp : Parse.Consumes nested) :
    Mirrors (Parse.statementOf value nested) (statementOf value' nested') := by
  intro t h
  unfold MirrorsAt Parse.statementOf statementOf
  rw [bind_of_ok h.current]
  refine MirrorsAt.accept_cons h (fun u us hr hk => ?_) ?_
  · simp only [hk]
    exact mirrorsAt_forLoop hv hn h hr
  refine MirrorsAt.accept_cons h (fun u us hr hk => ?_) ?_
  · simp only [hk]
    exact mirrorsAt_conditional hv hn h hr
  refine MirrorsAt.accept_cons h (fun u us hr hk => ?_) ?_
  · simp only [hk]
    exact mirrorsAt_printStatement hv h hr
  refine MirrorsAt.accept_cons h (fun u us hr hk => ?_) ?_
  · simp only [hk]
    exact mirrorsAt_whileLoop hv hn h hr
  refine MirrorsAt.accept_cons h (fun u us hr hk => ?_) ?_
  · have hblock :=
      mirrors_blockOf (Parse.consumes_declarationOf hvc hnp) (mirrors_declarationOf hv hn)
    simp only [hk]
    rw [Cursor.current_of_cons hr]
    exact (hblock.bind fun body => .pure _) t.next (h.next hr)
  · exact .accept_nil (mirrors_expressionStatement hv t h)

end

/-- Statements are read alike in both ways. -/
theorem mirrors_statement (room : Nat) : Mirrors (Parse.statement room) (statement room) := by
  induction room with
  | zero => exact .fail _
  | succ room ih =>
    exact mirrors_statementOf (mirrors_expression room) (Parse.composed_expression room) ih
      (Parse.consumes_statement room)

theorem mirrors_declaration (room : Nat) : Mirrors (Parse.declaration room) (declaration room) :=
  mirrors_declarationOf (mirrors_expression room) (mirrors_statement room)

/-! ## Recovering -/

/-- Both pass the token to come, unless it is an end mark. -/
theorem mirrors_advance : Mirrors Parse.advance advance := by
  intro t h
  unfold MirrorsAt Parse.advance
  cases hr : t.state.cursor.rest with
  | nil =>
    have hstays : t.state.advance = t.state := by
      simp [ParseState.advance, Cursor.advance, hr]
    rw [h.advance_of_end hr, hstays]
    exact .ok rfl h
  | cons u us =>
    have hprevious : t.next.state.cursor.previous = u := by
      rw [Cursor.previous, h.past_next hr]
      rfl
    rw [h.advance_of_cons hr, ← h.state_next hr, hprevious]
    exact .ok rfl (h.next hr)

theorem pass_of_end (h : t.InOrder) (hr : t.state.cursor.rest = []) (fuel : Nat) :
    pass (fuel + 1) t = .ok () t := by
  rw [pass, choose_of_true (h.atEnd_of_end hr)]
  rfl

/-- With one turn more than there are tokens to come, the next boundary is reached. -/
theorem mirrorsAt_pass {before : List Token} {fuel : Nat} (h : t.InOrder)
    (hp : t.state.cursor.past = u :: before) (hfuel : t.state.cursor.rest.length < fuel) :
    MirrorsAt t (fun s => .ok () { s with cursor := s.cursor.toBoundary }) (pass fuel) := by
  induction fuel generalizing t u before with
  | zero => omega
  | succ fuel ih =>
    unfold MirrorsAt
    dsimp only
    cases hr : t.state.cursor.rest with
    | nil =>
      rw [pass_of_end h hr, Cursor.toBoundary_of_end hr]
      exact .ok rfl h
    | cons v vs =>
      have hprevious : t.state.cursor.previous = u := by
        rw [Cursor.previous, hp]
        rfl
      rw [pass, choose_of_false (h.atEnd_of_cons hr), bind_of_ok h.previous, hprevious,
        Cursor.toBoundary_of_cons hp hr]
      by_cases hu : (u.kind == .semicolon) = true
      · rw [if_pos hu, hu, if_pos (Bool.true_or _)]
        exact .ok rfl h
      have hfalse : (u.kind == .semicolon) = false := (Bool.not_eq_true _).mp hu
      rw [if_neg hu, bind_of_ok h.current, Cursor.current_of_cons hr, hfalse, Bool.false_or]
      by_cases hv : v.kind.startsStatement = true
      · rw [if_pos hv, if_pos (TokenKind.startsStatement_iff.mp hv)]
        exact .ok rfl h
      · have hlength : t.next.state.cursor.rest.length < fuel := by
          rw [h.rest_next hr]
          rw [hr, List.length_cons] at hfuel
          omega
        have hlater := ih (h.next hr) (h.past_next hr) hlength
        unfold MirrorsAt at hlater
        rw [h.state_next hr] at hlater
        rw [if_neg hv, if_neg (mt TokenKind.startsStatement_iff.mpr hv),
          bind_of_ok (h.advance_of_cons hr)]
        exact hlater

/-- Both go on to the same boundary. -/
theorem mirrors_synchronize : Mirrors (fun s => .ok () s.synchronize) synchronize := by
  intro t h
  unfold MirrorsAt synchronize ParseState.synchronize
  dsimp only
  cases hr : t.state.cursor.rest with
  | nil =>
    have hstays : t.state.cursor.synchronize = t.state.cursor := by
      unfold Cursor.synchronize
      rw [hr]
    rw [hstays, bind_of_ok (h.advance_of_end hr)]
    change Mirrored t.tokens _ (pass (t.tokens.length + 1) t)
    rw [pass_of_end h hr]
    exact .ok rfl h
  | cons u us =>
    have hpass := mirrorsAt_pass (h.next hr) (h.past_next hr) (length_rest_lt_turns t.next)
    unfold MirrorsAt at hpass
    rw [h.state_next hr] at hpass
    rw [Cursor.synchronize_eq (by simp [hr]), bind_of_ok (h.advance_of_cons hr)]
    exact hpass

/-! ## Programs -/

/-- With one turn more than there are tokens to come, all declarations are read or dropped. -/
theorem mirrorsAt_programOf {room fuel : Nat} (h : t.InOrder)
    (hfuel : t.state.cursor.rest.length < fuel) :
    MirrorsAt t (fun s => .ok (Parse.program room s).1 (Parse.program room s).2)
      (programOf (declaration room) fuel) := by
  induction fuel generalizing t with
  | zero => omega
  | succ fuel ih =>
    unfold MirrorsAt
    dsimp only
    rw [programOf]
    by_cases hr : t.state.cursor.rest = []
    · rw [choose_of_true (h.atEnd_of_end hr), Parse.program_of_end hr]
      exact .ok rfl h
    obtain ⟨u, us, hcons⟩ := List.exists_cons_of_ne_nil hr
    rw [choose_of_false (h.atEnd_of_cons hcons)]
    have hread : Mirrored t.tokens _ _ := mirrors_declaration room t h
    generalize hp : Parse.declaration room t.state = r at hread
    generalize hq : declaration room t = r' at hread
    cases hread with
    | @ok d t₁ htokens h₁ =>
      have hlt := Parse.consumes_declaration room t.state d t₁.state hp
      rw [Parse.program_of_ok hr hp, bind_of_ok (attempt_of_ok hq), ← htokens]
      exact (ih h₁ (by omega)).bind fun ds t₂ _ _ h₂ => Mirrors.pure (d :: ds) t₂ h₂
    | @error e t₁ htokens h₁ =>
      have hlt := Parse.length_recover_lt hr hp
      rw [Parse.program_of_error hr hp, bind_of_ok (attempt_of_broken hq), ← htokens]
      -- the error is noted, and reading goes on behind the next boundary
      have hsynchronize :=
        mirrors_synchronize { t₁ with failed := true, noted := t₁.noted ++ [e], panicked := true }
          ((h₁.noted e).dropped rfl)
      refine hsynchronize.bind
        (f := fun _ s => .ok (Parse.program room s).1 (Parse.program room s).2)
        fun _ t₂ hboundary _ h₂ => ih h₂ ?_
      have hrecover : t₁.state.recover e = t₂.state := (Result.ok.inj hboundary).2
      rw [← hrecover]
      omega

/-- Programs are read alike in both ways, with as many errors as there may be. -/
theorem mirrors_program (room : Nat) :
    Mirrors (fun s => .ok (Parse.program room s).1 (Parse.program room s).2) (program room) :=
  fun t h => mirrorsAt_programOf h (length_rest_lt_turns t)

/-- On a tape, a list of tokens is read as the same program, and both flags agree with the reports. -/
theorem exists_program (room : Nat) (ts : List Token) :
    ∃ t, program room (ofTokens ts) = .ok (Program.ofTokens room ts).statements t ∧
      t.noted = (Program.ofTokens room ts).errors ∧
      t.panicked = (Program.ofTokens room ts).panicked ∧ t.InOrder := by
  obtain ⟨t, hread, hstate, -, h⟩ := (mirrors_program room).exists_of_total (inOrder_ofTokens ts)
  rw [state_ofTokens] at hread hstate
  exact ⟨t, hread, congrArg ParseState.noted hstate, congrArg ParseState.panicked hstate, h⟩

/-- So wherever reading ends, its flags are in agreement with what it has reported. -/
theorem inOrder_program {room : Nat} {ts : List Token} {ss : List Stmt} {t : Tape}
    (h : program room (ofTokens ts) = .ok ss t) : t.InOrder := by
  obtain ⟨t', hread, -, -, ht⟩ := exists_program room ts
  obtain ⟨-, rfl⟩ := Result.ok.inj (hread.symm.trans h)
  exact ht

end Tape

end LoxScript
