import LoxScript.Proofs.Grammar.Composition

/-!
# How much room suffices

Every construct that takes room passes a token first: a prefix operator, a parenthesis, a sign of
assignment, or the word or brace that begins a statement. So constructs are never found to be nested
too deeply where there is about twice as much room as there are tokens to come.
-/

namespace LoxScript

open ParseState

namespace Parse

variable {α β : Type}

/-- From this state the step reads on, and it neither breaks off nor notes an error because
constructs are nested too deeply. -/
structure ShallowAt (p : Parse α) (s : ParseState) : Prop where
  reads : Reads s (endState (p s))
  breaks : ∀ e s', p s = .error e s' → e.cause ≠ .tooDeep
  notes : ∀ e ∈ (endState (p s)).noted, e ∈ s.noted ∨ e.cause ≠ .tooDeep

/-- The step does not get too deep with at most `n` tokens to come. -/
def Shallow (n : Nat) (p : Parse α) : Prop :=
  ∀ s, s.cursor.rest.length ≤ n → ShallowAt p s

namespace Shallow

variable {n : Nat} {p : Parse α} {f : α → Parse β}

theorem mono {m : Nat} (h : Shallow n p) (hm : m ≤ n) : Shallow m p :=
  fun s hs => h s (Nat.le_trans hs hm)

/-- A step that changes nothing and does not break off because of the depth. -/
theorem still (h : ∀ s, endState (p s) = s)
    (he : ∀ s e s', p s = .error e s' → e.cause ≠ .tooDeep) : Shallow n p := by
  intro s _
  refine ⟨?_, he s, ?_⟩
  · rw [h]
    exact refl_of Reads s
  · intro e hmem
    rw [h] at hmem
    exact .inl hmem

theorem result (a : α) : Shallow n (pure a : Parse α) :=
  still (fun _ => rfl) fun _ _ _ h => by cases h

theorem fail {cause : SyntaxCause} (h : cause ≠ .tooDeep) : Shallow n (fail cause : Parse α) :=
  still (fun _ => rfl) fun _ _ _ h' => by
    cases h'
    exact h

theorem remaining : Shallow n remaining := still (fun _ => rfl) fun _ _ _ h => by cases h

theorem note {e : SyntaxError} (h : e.cause ≠ .tooDeep) : Shallow n (note e) := by
  intro s _
  refine ⟨reads_note s e, fun _ _ h' => (by cases h'), fun e' hmem => ?_⟩
  rcases List.mem_append.mp hmem with hmem | hmem
  · exact .inl hmem
  · rw [List.mem_singleton.mp hmem]
    exact .inr h

/-- In a sequence, the second step needs to be shallow only for the tokens left by the first. -/
theorem bind_of_length {m : Nat} (hp : Shallow n p) (hf : ∀ a, Shallow m (f a))
    (hlen : ∀ s a s', s.cursor.rest.length ≤ n → p s = .ok a s' → s'.cursor.rest.length ≤ m) :
    Shallow n (p >>= f) := by
  intro s hs
  obtain ⟨hreads, hbreaks, hnotes⟩ := hp s hs
  cases h : p s with
  | ok a s₁ =>
    obtain ⟨hreads', hbreaks', hnotes'⟩ := hf a s₁ (hlen s a s₁ hs h)
    rw [h] at hreads hnotes
    refine ⟨?_, ?_, ?_⟩ <;> rw [bind_of_ok h]
    · exact trans_of Reads hreads hreads'
    · exact hbreaks'
    · intro e hmem
      rcases hnotes' e hmem with hmem | he
      · exact hnotes e hmem
      · exact .inr he
  | error e s₁ =>
    rw [h] at hreads hnotes
    refine ⟨?_, ?_, ?_⟩ <;> rw [bind_of_error h]
    · exact hreads
    · intro e' s' h'
      cases h'
      exact hbreaks e s₁ h
    · exact hnotes

theorem bind (hp : Shallow n p) (hf : ∀ a, Shallow n (f a)) : Shallow n (p >>= f) := by
  refine hp.bind_of_length hf fun s a s' hs h => ?_
  have hread := (hp s hs).reads.length_le
  rw [h] at hread
  exact Nat.le_trans hread hs

theorem skip : Shallow n skip :=
  fun s _ => ⟨reads_advance s, fun _ _ h => (by cases h), fun _ hmem => .inl hmem⟩

/-- Behind a token, there is one token less to come. -/
theorem skipping {f : Unit → Parse β} (h : Shallow (n - 1) (f ())) :
    Shallow n (Parse.skip >>= f) := by
  refine skip.bind_of_length (fun _ => h) fun s a s' hs h' => ?_
  cases h'
  rw [rest_advance, List.length_tail]
  omega

/-- Where a token is to come, there is at least one. -/
theorem looking {f : Option Token → Parse β} (hnone : Shallow n (f none))
    (hsome : ∀ t, 0 < n → Shallow n (f (some t))) : Shallow n (Parse.look >>= f) := by
  intro s hs
  have hlook : (Parse.look >>= f) s = f s.cursor.rest.head? s := rfl
  have hpart : ShallowAt (f s.cursor.rest.head?) s := by
    cases hr : s.cursor.rest with
    | nil => exact hnone s hs
    | cons t ts =>
      have hn : 0 < n := by
        rw [hr, List.length_cons] at hs
        omega
      exact hsome t hn s hs
  obtain ⟨hreads, hbreaks, hnotes⟩ := hpart
  refine ⟨?_, ?_, ?_⟩ <;> rw [hlook]
  · exact hreads
  · exact hbreaks
  · exact hnotes

/-- Behind a token that was passed there is one token less to come. -/
theorem accepting {f : Option Token → Parse β} {kinds : List TokenKind}
    (hsome : ∀ t, 0 < n → Shallow (n - 1) (f (some t))) (hnone : Shallow n (f none)) :
    Shallow n (accept kinds >>= f) := by
  rw [accept_eq, bind_assoc]
  refine looking (by simpa using hnone) fun t hn => ?_
  dsimp only
  split
  · rw [bind_assoc]
    exact skipping (by simpa using hsome t hn)
  · simpa using hnone

theorem expect {kind : TokenKind} {cause : SyntaxCause} (h : cause ≠ .tooDeep) :
    Shallow n (expect kind cause) := by
  rw [expect_eq]
  refine looking (.fail h) fun t hn => ?_
  dsimp only
  split
  · exact skip.bind fun _ => .result _
  · exact .fail h

end Shallow

/-! ## Expressions -/

section

variable {n : Nat}

theorem shallow_climb {operand : Parse Expr} (ho : Shallow n operand) (fuel least : Nat)
    (left : Expr) : Shallow n (climb operand fuel least left) := by
  induction fuel generalizing least left with
  | zero => exact .result left
  | succ fuel ih =>
    rw [climb_succ]
    refine .looking (.result left) fun t hn => ?_
    dsimp only
    split
    · exact .result left
    · split
      · exact .result left
      · exact Shallow.skip.bind fun _ => ho.bind fun first => (ih _ first).bind fun right => ih _ _

theorem shallow_tiers {operand : Parse Expr} (ho : Shallow n operand) (least : Nat) :
    Shallow n (tiers operand least) :=
  ho.bind fun left => Shallow.remaining.bind fun fuel => shallow_climb ho fuel least left

/-- The expression in parentheses has a token less. -/
theorem shallow_primaryOf {inner : Parse Expr} (hi : 0 < n → Shallow (n - 1) inner) :
    Shallow n (primaryOf inner) := by
  rw [primaryOf_eq]
  refine .looking (.fail (by simp)) fun t hn => ?_
  dsimp only
  split
  · exact .skipping (.result _)
  · split
    · exact .skipping ((hi hn).bind fun e => (Shallow.expect (by simp)).bind fun _ => .result _)
    · exact .fail (by simp)

theorem shallow_unaryOf {nested primary : Parse Expr} (hn : 0 < n → Shallow (n - 1) nested)
    (hp : Shallow n primary) : Shallow n (unaryOf nested primary) :=
  .accepting (fun _ h => (hn h).bind fun _ => .result _) hp

theorem shallow_assignmentOf {target value : Parse Expr} (ht : Shallow n target)
    (hv : 0 < n → Shallow (n - 1) value) : Shallow n (assignmentOf target value) := by
  refine ht.bind fun left => .accepting (fun sign hn => (hv hn).bind fun e => ?_) (.result _)
  split
  · exact .result _
  · exact (Shallow.note (by simp)).bind fun _ => .result _

end

mutual

theorem shallow_unary {room n : Nat} (h : 2 * n + 1 ≤ room) : Shallow n (unary room) := by
  cases room with
  | zero => omega
  | succ room =>
    exact shallow_unaryOf (fun hn => shallow_unary (by omega))
      (shallow_primaryOf fun hn => shallow_expression (by omega))

/-- Room for two levels a token is enough for an expression. -/
theorem shallow_expression {room n : Nat} (h : 2 * n + 2 ≤ room) : Shallow n (expression room) := by
  cases room with
  | zero => omega
  | succ room =>
    exact shallow_assignmentOf (shallow_tiers (shallow_unary (by omega)) 1)
      fun hn => shallow_expression (by omega)

end

/-! ## Statements -/

section

variable {n : Nat} {value : Parse Expr} {nested : Parse Stmt}

theorem shallow_expressionStatement (hv : Shallow n value) :
    Shallow n (expressionStatement value) :=
  hv.bind fun _ => (Shallow.expect (by simp)).bind fun _ => .result _

theorem shallow_variableDeclaration (hv : Shallow n value) :
    Shallow n (variableDeclaration value) := by
  refine (Shallow.expect (by simp)).bind fun name => .accepting (fun _ _ => ?_) ?_
  · exact (hv.mono (Nat.sub_le n 1)).bind fun e => (Shallow.result _).bind fun _ =>
      (Shallow.expect (by simp)).bind fun _ => .result _
  · exact (Shallow.result _).bind fun _ => (Shallow.expect (by simp)).bind fun _ => .result _

theorem shallow_declarationOf (hv : Shallow n value) (hn : Shallow n nested) :
    Shallow n (declarationOf value nested) :=
  .accepting (fun _ _ => (shallow_variableDeclaration hv).mono (Nat.sub_le _ _)) hn

theorem shallow_declarations {declaration : Parse Stmt} (hd : Shallow n declaration) (fuel : Nat) :
    Shallow n (declarations declaration fuel) := by
  induction fuel with
  | zero => exact .result _
  | succ fuel ih =>
    refine .looking (.result _) fun t _ => ?_
    dsimp only
    split
    · exact .result _
    · exact hd.bind fun _ => ih.bind fun _ => .result _

theorem shallow_blockOf {declaration : Parse Stmt} (hd : Shallow n declaration) :
    Shallow n (blockOf declaration) :=
  Shallow.remaining.bind fun fuel => (shallow_declarations hd fuel).bind fun _ =>
    (Shallow.expect (by simp)).bind fun _ => .result _

theorem shallow_conditional (hv : Shallow n value) (hn : Shallow n nested) (line : Int) :
    Shallow n (conditional value nested line) :=
  (Shallow.expect (by simp)).bind fun _ => hv.bind fun _ => (Shallow.expect (by simp)).bind fun _ =>
    hn.bind fun _ => .accepting
      (fun _ _ => (hn.mono (Nat.sub_le _ _)).bind fun _ => .result _) (.result _)

theorem shallow_whileLoop (hv : Shallow n value) (hn : Shallow n nested) (line : Int) :
    Shallow n (whileLoop value nested line) :=
  (Shallow.expect (by simp)).bind fun _ => hv.bind fun _ => (Shallow.expect (by simp)).bind fun _ =>
    hn.bind fun _ => .result _

theorem shallow_firstClause (hv : Shallow n value) : Shallow n (firstClause value) := by
  refine .accepting (fun _ _ => .result _) (.accepting (fun _ _ => ?_) ?_)
  · exact ((shallow_variableDeclaration hv).mono (Nat.sub_le _ _)).bind fun _ => .result _
  · exact (shallow_expressionStatement hv).bind fun _ => .result _

theorem shallow_optional (hv : Shallow n value) (kind : TokenKind) :
    Shallow n (optional value kind) := by
  refine .looking (hv.bind fun _ => .result _) fun t _ => ?_
  dsimp only
  split
  · exact .result _
  · exact hv.bind fun _ => .result _

theorem shallow_forLoop (hv : Shallow n value) (hn : Shallow n nested) (line : Int) :
    Shallow n (forLoop value nested line) := by
  have hclauses : Shallow n (forClauses value) :=
    (Shallow.expect (by simp)).bind fun _ => (shallow_firstClause hv).bind fun _ =>
      (shallow_optional hv _).bind fun _ => (Shallow.expect (by simp)).bind fun _ =>
        (shallow_optional hv _).bind fun _ => (Shallow.expect (by simp)).bind fun _ => .result _
  exact hclauses.bind fun _ => hn.bind fun _ => .result _

/-- A statement within another one has a token less. -/
theorem shallow_statementOf (hv : Shallow n value) (hn : 0 < n → Shallow (n - 1) nested) :
    Shallow n (statementOf value nested) := by
  refine .accepting (fun t h => ?_) (shallow_expressionStatement hv)
  have hv' := hv.mono (Nat.sub_le n 1)
  have hn' := hn h
  dsimp only
  split
  · exact shallow_forLoop hv' hn' _
  · exact shallow_conditional hv' hn' _
  · exact hv'.bind fun _ => (Shallow.expect (by simp)).bind fun _ => .result _
  · exact shallow_whileLoop hv' hn' _
  · exact (shallow_blockOf (shallow_declarationOf hv' hn')).bind fun _ => .result _

end

/-- Room for two levels a token, and a few more, is enough for a statement. -/
theorem shallow_statement {room n : Nat} (h : 2 * n + 3 ≤ room) : Shallow n (statement room) := by
  induction room generalizing n with
  | zero => omega
  | succ room ih =>
    exact shallow_statementOf (shallow_expression (by omega)) fun hn => ih (by omega)

/-- No declaration of at most `n` tokens is too deep for a room of `2 * n + 3`. -/
theorem shallow_declaration {room n : Nat} (h : 2 * n + 3 ≤ room) :
    Shallow n (declaration room) :=
  shallow_declarationOf (shallow_expression (by omega)) (shallow_statement h)

end Parse

end LoxScript
