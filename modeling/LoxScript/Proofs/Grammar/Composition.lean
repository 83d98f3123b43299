import LoxScript.Proofs.Grammar.Reading

/-!
# The grammar is composed of few steps

Every construct of the grammar is put together from looking at the token to come, passing it and
breaking off at it (`composed_expression`, `composed_statement`, `composed_declaration`).

The loops of the grammar, over operators and over the declarations of a block, are granted as many
turns as there are tokens to come. Each turn passes a token, so further turns change nothing, and
the loops satisfy the equations that one would write without counting turns: `climbAll` folds
operators as long as there are any, `declarationsAll` reads declarations up to a closing brace.
-/

namespace LoxScript

open ParseState

namespace Parse

variable {α : Type}

/-! ## Folding operators -/

section

variable {operand : Parse Expr}

/-- Folding operators is composed, however many turns are granted. -/
theorem composed_climb (ho : Composed operand) (fuel least : Nat) (left : Expr) :
    Composed (climb operand fuel least left) := by
  induction fuel generalizing least left with
  | zero => exact .pure left
  | succ fuel ih =>
    rw [climb_succ]
    refine .bind .look fun o => ?_
    cases o with
    | none => exact .pure left
    | some t =>
      dsimp only
      split
      · exact .pure left
      · split
        · exact .pure left
        · exact .bind .skip fun _ => .bind ho fun first => .bind (ih _ first) fun right => ih _ _

/-- Where no token comes, there is nothing to fold. -/
theorem climb_of_end {s : ParseState} (h : s.cursor.rest = []) (fuel least : Nat) (left : Expr) :
    climb operand fuel least left s = .ok left s := by
  cases fuel with
  | zero => rfl
  | succ fuel =>
    rw [climb_succ]
    have hl : look s = .ok none s := by simp [look, h]
    rw [bind_of_ok hl]
    rfl

/-- Turns beyond the number of tokens to come change nothing. -/
theorem climb_granted (ho : Composed operand) {fuel fuel' least : Nat} {left : Expr}
    {s : ParseState} (h : s.cursor.rest.length ≤ fuel) (h' : s.cursor.rest.length ≤ fuel') :
    climb operand fuel least left s = climb operand fuel' least left s := by
  -- each operator that is folded is a token less to come, so that both numbers suffice
  induction fuel generalizing fuel' least left s with
  | zero =>
    have hr : s.cursor.rest = [] := List.length_eq_zero_iff.mp (by omega)
    rw [climb_of_end hr, climb_of_end hr]
  | succ fuel ih =>
    cases hr : s.cursor.rest with
    | nil => rw [climb_of_end hr, climb_of_end hr]
    | cons t ts =>
      rw [hr, List.length_cons] at h h'
      obtain ⟨fuel', rfl⟩ : ∃ n, fuel' = n + 1 := ⟨fuel' - 1, by omega⟩
      have hl : look s = .ok (some t) s := by simp [look, hr]
      rw [climb_succ, climb_succ, bind_of_ok hl, bind_of_ok hl]
      dsimp only
      cases Tier.of? t.kind with
      | none => rfl
      | some tier =>
        dsimp only
        split
        · rfl
        · refine bind_congr_at rfl fun _ s₁ h₁ => bind_congr_at rfl fun first s₂ h₂ => ?_
          have hlen : s₂.cursor.rest.length ≤ ts.length := by
            have hread := (ho.frames.of_ok h₂).length_le
            cases h₁
            rwa [rest_advance, hr, List.tail_cons] at hread
          refine bind_congr_at (ih (by omega) (by omega)) fun right s₃ h₃ => ?_
          have hread := ((composed_climb ho _ _ _).frames.of_ok h₃).length_le
          exact ih (by omega) (by omega)

/-- Folds all operators that bind at `least` or more tightly onto the operand `left`. -/
def climbAll (operand : Parse Expr) (least : Nat) (left : Expr) : Parse Expr := fun s =>
  climb operand s.cursor.rest.length least left s

theorem composed_climbAll (ho : Composed operand) (least : Nat) (left : Expr) :
    Composed (climbAll operand least left) :=
  .granted (fun n => climb operand n least left) (fun n => composed_climb ho n least left)
    fun _ _ h => climb_granted ho (Nat.le_refl _) h

/-- The operators are folded onto the first operand. -/
theorem tiers_eq (operand : Parse Expr) (least : Nat) :
    tiers operand least = operand >>= climbAll operand least := by
  funext s
  refine bind_congr_at rfl fun left s₁ _ => ?_
  have hr : remaining s₁ = .ok s₁.cursor.rest.length s₁ := rfl
  rw [bind_of_ok hr]
  rfl

/-- The tier of the operator that is to come, if one is. -/
def tierOf? (rest : List Token) : Option Tier := rest.head?.bind (Tier.of? ·.kind)

/-- A tier that is seen is that of the token to come. -/
theorem exists_of_tierOf? {rest : List Token} {tier : Tier} (h : tierOf? rest = some tier) :
    ∃ t ts, rest = t :: ts ∧ Tier.of? t.kind = some tier := by
  cases rest with
  | nil => cases h
  | cons t ts => exact ⟨t, ts, rfl, h⟩

/-- Without an operator that binds tightly enough, there is nothing to fold. -/
theorem climbAll_of_stop {s : ParseState} {least : Nat} {left : Expr}
    (h : ∀ tier, tierOf? s.cursor.rest = some tier → tier.level < least) :
    climbAll operand least left s = .ok left s := by
  unfold climbAll
  cases hr : s.cursor.rest with
  | nil => exact climb_of_end hr _ _ _
  | cons t ts =>
    have hl : look s = .ok (some t) s := by simp [look, hr]
    rw [List.length_cons, climb_succ, bind_of_ok hl]
    dsimp only
    cases ht : Tier.of? t.kind with
    | none => rfl
    | some tier =>
      dsimp only
      rw [if_pos (h tier (by simp [tierOf?, hr, ht]))]
      rfl

/-- An operator that binds tightly enough is folded, its right operand being all that binds more
tightly. -/
theorem climbAll_of_fold (ho : Composed operand) {s : ParseState} {least : Nat} {left : Expr}
    {t : Token} {ts : List Token} {tier : Tier} (hr : s.cursor.rest = t :: ts)
    (ht : Tier.of? t.kind = some tier) (hl : least ≤ tier.level) :
    climbAll operand least left s =
      (tiers operand (tier.level + 1) >>= fun right =>
        climbAll operand least (tier.join left t right)) s.advance := by
  have hlook : look s = .ok (some t) s := by simp [look, hr]
  have hskip : skip s = .ok () s.advance := rfl
  have hall : climbAll operand least left s = climb operand (ts.length + 1) least left s := by
    simp [climbAll, hr]
  rw [hall, climb_succ, bind_of_ok hlook]
  simp only [ht, if_neg (Nat.not_lt.mpr hl)]
  rw [bind_of_ok hskip, tiers_eq, bind_assoc]
  refine bind_congr_at rfl fun first s₁ h₁ => ?_
  have hlen : s₁.cursor.rest.length ≤ ts.length := by
    have hread := (ho.frames.of_ok h₁).length_le
    rwa [rest_advance, hr, List.tail_cons] at hread
  refine bind_congr_at (climb_granted ho hlen (Nat.le_refl _)) fun right s₂ h₂ => ?_
  have hread := ((composed_climbAll ho _ _).frames.of_ok h₂).length_le
  exact climb_granted ho (by omega) (Nat.le_refl _)

end

/-! ## Expressions -/

theorem composed_tiers {operand : Parse Expr} (ho : Composed operand) (least : Nat) :
    Composed (tiers operand least) := by
  rw [tiers_eq]
  exact .bind ho fun left => composed_climbAll ho least left

/-- The token that was looked at need not be given once more when it is passed. -/
theorem primaryOf_eq (inner : Parse Expr) :
    primaryOf inner = (do
      match ← look with
      | none => fail .expectExpression
      | some t =>
        match Expr.ofToken? t with
        | some e =>
          skip
          return e
        | none =>
          if t.kind = .leftParen then
            skip
            let e ← inner
            let _ ← expect .rightParen (.expectRightParen .expression)
            return .grouping e t.line
          else fail .expectExpression) := rfl

/-- A primary expression is composed if the expression in its parentheses is. -/
theorem composed_primaryOf {inner : Parse Expr} (hi : Composed inner) :
    Composed (primaryOf inner) := by
  rw [primaryOf_eq]
  refine .bind .look fun o => ?_
  cases o with
  | none => exact .fail _
  | some t =>
    dsimp only
    split
    · exact .bind .skip fun _ => .pure _
    · split
      · exact .bind .skip fun _ => .bind hi fun e => .bind (.expect _ _) fun _ => .pure _
      · exact .fail _

/-- The rest of an expression in parentheses. -/
def parenthesesOf (inner : Parse Expr) (left : Token) : Parse Expr := do
  let e ← inner
  let _ ← expect .rightParen (.expectRightParen .expression)
  return .grouping e left.line

section

variable {inner : Parse Expr} {s : ParseState} {u : Token} {us : List Token}

/-- A token that is an expression by itself is read as that. -/
theorem primaryOf_of_atom {e : Expr} (hr : s.cursor.rest = u :: us)
    (h : Expr.ofToken? u = some e) : primaryOf inner s = .ok e s.advance := by
  have hl : look s = .ok (some u) s := by simp [look, hr]
  rw [primaryOf_eq, bind_of_ok hl]
  simp only [h]
  rfl

/-- Behind an opening parenthesis, an expression and its counterpart are read. -/
theorem primaryOf_of_parentheses (hr : s.cursor.rest = u :: us) (h : Expr.ofToken? u = none)
    (hk : u.kind = .leftParen) : primaryOf inner s = parenthesesOf inner u s.advance := by
  have hl : look s = .ok (some u) s := by simp [look, hr]
  rw [primaryOf_eq, bind_of_ok hl]
  simp only [h, if_pos hk]
  rfl

/-- Nothing else is a primary expression. -/
theorem primaryOf_of_other
    (h : ∀ u, s.cursor.rest.head? = some u → Expr.ofToken? u = none ∧ u.kind ≠ .leftParen) :
    primaryOf inner s = .error ⟨s.cursor.current, .expectExpression⟩ s := by
  rw [primaryOf_eq]
  cases hr : s.cursor.rest with
  | nil =>
    have hl : look s = .ok none s := by simp [look, hr]
    rw [bind_of_ok hl]
    rfl
  | cons u us =>
    have hl : look s = .ok (some u) s := by simp [look, hr]
    obtain ⟨hnone, hk⟩ := h u (by simp [hr])
    rw [bind_of_ok hl]
    simp only [hnone, if_neg hk]
    rfl

/-- The token to come decides between an atom, a parenthesis and an error. -/
theorem primaryOf_cases (s : ParseState) :
    (∃ u us, s.cursor.rest = u :: us ∧
      ((∃ e, ∀ inner t ts, t.cursor.rest = u :: ts → primaryOf inner t = .ok e t.advance) ∨
        ∀ inner t ts, t.cursor.rest = u :: ts →
          primaryOf inner t = parenthesesOf inner u t.advance)) ∨
    ∀ inner, primaryOf inner s = .error ⟨s.cursor.current, .expectExpression⟩ s := by
  by_cases hother : ∃ u, s.cursor.rest.head? = some u ∧
      (u.kind ≠ .leftParen → Expr.ofToken? u ≠ none)
  · obtain ⟨u, hu, hkind⟩ := hother
    obtain ⟨us, hr⟩ := List.head?_eq_some_iff.mp hu
    refine .inl ⟨u, us, hr, ?_⟩
    cases he : Expr.ofToken? u with
    | some e => exact .inl ⟨e, fun inner t ts ht => primaryOf_of_atom ht he⟩
    | none =>
      have hk : u.kind = .leftParen := by
        by_contra hk
        exact hkind hk he
      exact .inr fun inner t ts ht => primaryOf_of_parentheses ht he hk
  · refine .inr fun inner => primaryOf_of_other fun u hu => ?_
    simp only [not_exists, not_and, Classical.not_imp, not_not] at hother
    exact ⟨(hother u hu).2, (hother u hu).1⟩

end

theorem composed_unaryOf {nested primary : Parse Expr} (hn : Composed nested)
    (hp : Composed primary) : Composed (unaryOf nested primary) := by
  refine .bind (.accept _) fun o => ?_
  cases o with
  | none => exact hp
  | some op => exact .bind hn fun e => .pure _

mutual

theorem composed_unary (room : Nat) : Composed (unary room) := by
  cases room with
  | zero => exact .fail _
  | succ room =>
    exact composed_unaryOf (composed_unary room) (composed_primaryOf (composed_expression room))

/-- Reading an expression does nothing but look, pass, note and break off. -/
theorem composed_expression (room : Nat) : Composed (expression room) := by
  cases room with
  | zero => exact .fail _
  | succ room =>
    exact .assignment (composed_tiers (composed_unary room) 1) (composed_expression room)

end

/-! ## Progress -/

/-- Every result of `p` is behind at least one more token. -/
def Consumes (p : Parse α) : Prop :=
  ∀ s a s', p s = .ok a s' → s'.cursor.rest.length < s.cursor.rest.length

/-- A token that is expected is passed. -/
theorem consumes_expect (kind : TokenKind) (cause : SyntaxCause) :
    Consumes (expect kind cause) := by
  intro s a s' h
  unfold expect at h
  split at h
  · cases h
  · next t ts hr =>
    split at h
    · cases h
      rw [rest_advance, hr]
      simp
    · cases h

/-- What is composed may follow a construct that consumes. -/
theorem Consumes.before {β : Type} {p : Parse α} {f : α → Parse β} (hp : Consumes p)
    (hf : ∀ a, Composed (f a)) : Consumes (p >>= f) := by
  intro s b s₂ h
  obtain ⟨a, s₁, h₁, h₂⟩ := bind_eq_ok.mp h
  have hlt := hp s a s₁ h₁
  have hle := ((hf a).frames.of_ok h₂).length_le
  omega

/-- What is composed may precede a construct that consumes. -/
theorem Consumes.behind {β : Type} {p : Parse α} {f : α → Parse β} (hp : Composed p)
    (hf : ∀ a, Consumes (f a)) : Consumes (p >>= f) := by
  intro s b s₂ h
  obtain ⟨a, s₁, h₁, h₂⟩ := bind_eq_ok.mp h
  have hle := (hp.frames.of_ok h₁).length_le
  have hlt := hf a s₁ b s₂ h₂
  omega

/-- A primary expression has at least one token. -/
theorem consumes_primaryOf {inner : Parse Expr} (hi : Composed inner) :
    Consumes (primaryOf inner) := by
  intro s e s' h
  rcases primaryOf_cases s with ⟨u, us, hr, ⟨atom, hatom⟩ | hparentheses⟩ | herror
  · rw [hatom inner s us hr] at h
    cases h
    simp [hr]
  · have hrest : Composed (parenthesesOf inner u) :=
      .bind hi fun _ => .bind (.expect _ _) fun _ => .pure _
    rw [hparentheses inner s us hr] at h
    have hle := (hrest.frames.of_ok h).length_le
    rw [rest_advance, hr, List.tail_cons] at hle
    rw [hr, List.length_cons]
    omega
  · rw [herror] at h
    cases h

theorem consumes_unary (room : Nat) : Consumes (unary room) := by
  induction room with
  | zero =>
    intro s a s' h
    cases h
  | succ room ih =>
    refine .behind (.accept _) fun o => ?_
    cases o with
    | none => exact consumes_primaryOf (composed_expression room)
    | some op => exact ih.before fun _ => .pure _

/-- What is done behind the left side of an assignment is an assignment to that side. -/
theorem consumes_expression (room : Nat) : Consumes (expression room) := by
  cases room with
  | zero =>
    intro s a s' h
    cases h
  | succ room =>
    have htarget : Consumes (tiers (unary room) 1) := by
      rw [tiers_eq]
      exact (consumes_unary room).before fun left => composed_climbAll (composed_unary room) 1 left
    exact htarget.before fun left => .assignment (.pure left) (composed_expression room)

/-! ## Declarations in a row -/

section

variable {declaration : Parse Stmt}

theorem composed_declarations (hd : Composed declaration) (fuel : Nat) :
    Composed (declarations declaration fuel) := by
  induction fuel with
  | zero => exact .pure _
  | succ fuel ih =>
    refine .bind .look fun o => ?_
    cases o with
    | none => exact .pure _
    | some t =>
      dsimp only
      split
      · exact .pure _
      · exact .bind hd fun s => .bind ih fun later => .pure _

/-- Where no token comes, a block has no more declarations. -/
theorem declarations_of_end {s : ParseState} (h : s.cursor.rest = []) (fuel : Nat) :
    declarations declaration fuel s = .ok [] s := by
  cases fuel with
  | zero => rfl
  | succ fuel =>
    have hl : look s = .ok none s := by simp [look, h]
    rw [declarations, bind_of_ok hl]
    rfl

/-- Turns beyond the number of tokens to come change nothing. -/
theorem declarations_granted (hc : Consumes declaration) {fuel fuel' : Nat} {s : ParseState}
    (h : s.cursor.rest.length ≤ fuel) (h' : s.cursor.rest.length ≤ fuel') :
    declarations declaration fuel s = declarations declaration fuel' s := by
  induction fuel generalizing fuel' s with
  | zero =>
    have hr : s.cursor.rest = [] := List.length_eq_zero_iff.mp (by omega)
    rw [declarations_of_end hr, declarations_of_end hr]
  | succ fuel ih =>
    cases hr : s.cursor.rest with
    | nil => rw [declarations_of_end hr, declarations_of_end hr]
    | cons t ts =>
      have hlen : s.cursor.rest.length = ts.length + 1 := by rw [hr, List.length_cons]
      obtain ⟨fuel', rfl⟩ : ∃ n, fuel' = n + 1 := ⟨fuel' - 1, by omega⟩
      have hl : look s = .ok (some t) s := by simp [look, hr]
      rw [declarations, declarations, bind_of_ok hl, bind_of_ok hl]
      dsimp only
      split
      · rfl
      · refine bind_congr_at rfl fun d s₁ h₁ => ?_
        have hlt := hc s d s₁ h₁
        exact bind_congr_at (ih (by omega) (by omega)) fun _ _ _ => rfl

/-- All declarations up to a closing brace or the end. -/
def declarationsAll (declaration : Parse Stmt) : Parse (List Stmt) := fun s =>
  declarations declaration s.cursor.rest.length s

/-- The declarations of a block are composed if one of them is. -/
theorem composed_declarationsAll (hd : Composed declaration) (hc : Consumes declaration) :
    Composed (declarationsAll declaration) :=
  .granted (declarations declaration) (composed_declarations hd)
    fun _ _ h => declarations_granted hc (Nat.le_refl _) h

/-- A block consists of all declarations up to its closing brace. -/
theorem blockOf_eq (declaration : Parse Stmt) :
    blockOf declaration = (do
      let body ← declarationsAll declaration
      let _ ← expect .rightBrace .expectBlockEnd
      return body) := by
  funext s
  have hr : remaining s = .ok s.cursor.rest.length s := rfl
  rw [blockOf, bind_of_ok hr]
  rfl

/-- A row of declarations ends at the end and at a closing brace. -/
theorem declarationsAll_of_stop {s : ParseState}
    (h : ∀ t, s.cursor.rest.head? = some t → t.kind = .rightBrace) :
    declarationsAll declaration s = .ok [] s := by
  unfold declarationsAll
  cases hr : s.cursor.rest with
  | nil => exact declarations_of_end hr _
  | cons t ts =>
    have hl : look s = .ok (some t) s := by simp [look, hr]
    rw [List.length_cons, declarations, bind_of_ok hl]
    dsimp only
    rw [if_pos (h t (by simp [hr]))]
    rfl

/-- Anywhere else it goes on with a declaration. -/
theorem declarationsAll_of_go (hc : Consumes declaration) {s : ParseState} {t : Token}
    {ts : List Token} (hr : s.cursor.rest = t :: ts)
    (ht : t.kind ≠ .rightBrace) :
    declarationsAll declaration s =
      (do
        let d ← declaration
        let later ← declarationsAll declaration
        return d :: later) s := by
  have hl : look s = .ok (some t) s := by simp [look, hr]
  have hall : declarationsAll declaration s = declarations declaration (ts.length + 1) s := by
    simp [declarationsAll, hr]
  rw [hall, declarations, bind_of_ok hl]
  simp only [if_neg ht]
  refine bind_congr_at rfl fun d s₁ h₁ => ?_
  have hlt := hc s d s₁ h₁
  rw [hr, List.length_cons] at hlt
  exact bind_congr_at (declarations_granted hc (by omega) (Nat.le_refl _)) fun _ _ _ => rfl

end

/-! ## Statements -/

section

variable {value : Parse Expr} {nested statement declaration : Parse Stmt}

theorem composed_expressionStatement (hv : Composed value) :
    Composed (expressionStatement value) :=
  .bind hv fun _ => .bind (.expect _ _) fun _ => .pure _

theorem consumes_expressionStatement (hv : Composed value) :
    Consumes (expressionStatement value) :=
  .behind hv fun _ => (consumes_expect _ _).before fun _ => .pure _

theorem composed_variableDeclaration (hv : Composed value) :
    Composed (variableDeclaration value) := by
  refine .bind (.expect _ _) fun name => .bind (.accept _) fun o => ?_
  cases o with
  | none => exact .bind (.pure _) fun _ => .bind (.expect _ _) fun _ => .pure _
  | some _ =>
    exact .bind hv fun _ => .bind (.pure _) fun _ => .bind (.expect _ _) fun _ => .pure _

theorem consumes_variableDeclaration (hv : Composed value) :
    Consumes (variableDeclaration value) := by
  refine (consumes_expect _ _).before fun name => .bind (.accept _) fun o => ?_
  cases o with
  | none => exact .bind (.pure _) fun _ => .bind (.expect _ _) fun _ => .pure _
  | some _ =>
    exact .bind hv fun _ => .bind (.pure _) fun _ => .bind (.expect _ _) fun _ => .pure _

theorem composed_declarationOf (hv : Composed value) (hs : Composed statement) :
    Composed (declarationOf value statement) := by
  refine .bind (.accept _) fun o => ?_
  cases o with
  | none => exact hs
  | some _ => exact composed_variableDeclaration hv

/-- A declaration has at least one token if a statement has. -/
theorem consumes_declarationOf (hv : Composed value) (hs : Consumes statement) :
    Consumes (declarationOf value statement) := by
  refine .behind (.accept _) fun o => ?_
  cases o with
  | none => exact hs
  | some _ => exact consumes_variableDeclaration hv

theorem composed_blockOf (hd : Composed declaration) (hc : Consumes declaration) :
    Composed (blockOf declaration) := by
  rw [blockOf_eq]
  exact .bind (composed_declarationsAll hd hc) fun _ => .bind (.expect _ _) fun _ => .pure _

theorem consumes_blockOf (hd : Composed declaration) (hc : Consumes declaration) :
    Consumes (blockOf declaration) := by
  rw [blockOf_eq]
  exact .behind (composed_declarationsAll hd hc) fun _ =>
    (consumes_expect _ _).before fun _ => .pure _

theorem composed_optional (hv : Composed value) (kind : TokenKind) :
    Composed (optional value kind) := by
  refine .bind .look fun o => ?_
  cases o with
  | none => exact .bind hv fun _ => .pure _
  | some t =>
    dsimp only
    split
    · exact .pure _
    · exact .bind hv fun _ => .pure _

theorem composed_firstClause (hv : Composed value) : Composed (firstClause value) := by
  refine .bind (.accept _) fun o => ?_
  cases o with
  | some _ => exact .pure _
  | none =>
    refine .bind (.accept _) fun o => ?_
    cases o with
    | some _ => exact .bind (composed_variableDeclaration hv) fun _ => .pure _
    | none => exact .bind (composed_expressionStatement hv) fun _ => .pure _

theorem composed_forClauses (hv : Composed value) : Composed (forClauses value) :=
  .bind (.expect _ _) fun _ => .bind (composed_firstClause hv) fun _ =>
    .bind (composed_optional hv _) fun _ => .bind (.expect _ _) fun _ =>
      .bind (composed_optional hv _) fun _ => .bind (.expect _ _) fun _ => .pure _

theorem consumes_forClauses (hv : Composed value) : Consumes (forClauses value) :=
  (consumes_expect _ _).before fun _ => .bind (composed_firstClause hv) fun _ =>
    .bind (composed_optional hv _) fun _ => .bind (.expect _ _) fun _ =>
      .bind (composed_optional hv _) fun _ => .bind (.expect _ _) fun _ => .pure _

theorem composed_conditional (hv : Composed value) (hn : Composed nested) (line : Int) :
    Composed (conditional value nested line) := by
  refine .bind (.expect _ _) fun _ => .bind hv fun c => .bind (.expect _ _) fun _ =>
    .bind hn fun body => .bind (.accept _) fun o => ?_
  cases o with
  | none => exact .pure _
  | some _ => exact .bind hn fun _ => .pure _

theorem consumes_conditional (hv : Composed value) (hn : Composed nested) (line : Int) :
    Consumes (conditional value nested line) := by
  refine (consumes_expect _ _).before fun _ => .bind hv fun c => .bind (.expect _ _) fun _ =>
    .bind hn fun body => .bind (.accept _) fun o => ?_
  cases o with
  | none => exact .pure _
  | some _ => exact .bind hn fun _ => .pure _

/-- A statement is composed, and passes a token, if its parts are and do. -/
theorem composed_statementOf (hv : Composed value) (hn : Composed nested) (hc : Consumes nested) :
    Composed (statementOf value nested) := by
  refine .bind (.accept _) fun o => ?_
  cases o with
  | none => exact composed_expressionStatement hv
  | some t =>
    dsimp only
    split
    · exact .bind (composed_forClauses hv) fun _ => .bind hn fun _ => .pure _
    · exact composed_conditional hv hn _
    · exact .bind hv fun _ => .bind (.expect _ _) fun _ => .pure _
    · exact .bind (.expect _ _) fun _ => .bind hv fun _ => .bind (.expect _ _) fun _ =>
        .bind hn fun _ => .pure _
    · exact .bind (composed_blockOf (composed_declarationOf hv hn) (consumes_declarationOf hv hc))
        fun _ => .pure _

theorem consumes_statementOf (hv : Composed value) (hn : Composed nested) (hc : Consumes nested) :
    Consumes (statementOf value nested) := by
  refine .behind (.accept _) fun o => ?_
  cases o with
  | none => exact consumes_expressionStatement hv
  | some t =>
    dsimp only
    split
    · exact (consumes_forClauses hv).before fun _ => .bind hn fun _ => .pure _
    · exact consumes_conditional hv hn _
    · exact .behind hv fun _ => (consumes_expect _ _).before fun _ => .pure _
    · exact (consumes_expect _ _).before fun _ => .bind hv fun _ => .bind (.expect _ _) fun _ =>
        .bind hn fun _ => .pure _
    · exact (consumes_blockOf (composed_declarationOf hv hn) (consumes_declarationOf hv hc)).before
        fun _ => .pure _

end

/-- Both are shown together, as a block needs its statements to consume in order to be composed. -/
theorem composed_consumes_statement (room : Nat) :
    Composed (statement room) ∧ Consumes (statement room) := by
  induction room with
  | zero =>
    refine ⟨.fail _, ?_⟩
    intro s a s' h
    cases h
  | succ room ih =>
    have hv := composed_expression room
    exact ⟨composed_statementOf hv ih.1 ih.2, consumes_statementOf hv ih.1 ih.2⟩

theorem composed_statement (room : Nat) : Composed (statement room) :=
  (composed_consumes_statement room).1

theorem consumes_statement (room : Nat) : Consumes (statement room) :=
  (composed_consumes_statement room).2

/-- Reading a declaration does nothing but look, pass, note and break off. -/
theorem composed_declaration (room : Nat) : Composed (declaration room) :=
  composed_declarationOf (composed_expression room) (composed_statement room)

/-- Every declaration has at least one token, so that reading a program ends. -/
theorem consumes_declaration (room : Nat) : Consumes (declaration room) :=
  consumes_declarationOf (composed_expression room) (consumes_statement room)

end Parse

end LoxScript
