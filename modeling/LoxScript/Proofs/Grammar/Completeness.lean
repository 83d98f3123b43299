import LoxScript.Proofs.Grammar.Composition
import LoxScript.Proofs.Grammar.Derivation

/-!
# What is derived is read

Tokens that derive an expression or a statement are read as such, and reading stops right behind
them, provided that what follows cannot extend them: no operator or sign of assignment behind an
expression, no "else" behind a statement that dangles. The one other outcome is that the room at
hand does not suffice; `Expr.nesting` says how much room an expression takes.

For the operators the statement that carries the induction is about the fold: reading the tokens of
an operand of some level amounts to going on with the fold onto that operand, at any looser level.
-/

namespace LoxScript

open ParseState

/-- How deeply an expression nests: a parenthesis counts twice, a prefix operator and an assigned
value once, and the operators of the tiers do not count. -/
def Expr.nesting : Expr → Nat
  | literal _ _ | read _ _ | malformed _ _ => 1
  | unary _ e _ | assign _ e _ => e.nesting + 1
  | binary l _ r _ | logical l _ r _ => max l.nesting r.nesting
  | grouping e _ => e.nesting + 2

/-- Every expression needs some room. -/
theorem Expr.nesting_pos (e : Expr) : 0 < e.nesting := by
  induction e <;> simp only [nesting] <;> omega

/-- An operation needs no more room than its operands. -/
theorem Tier.nesting_join (tier : Tier) (l : Expr) (op : Token) (r : Expr) :
    (tier.join l op r).nesting = max l.nesting r.nesting := by
  cases tier <;> rfl

namespace Parse

variable {α β : Type}

/-- From the first state the step has the result `a` and ends in the second state, unless the
constructs nest too deeply, which can only be if `deep` holds. -/
def Finds (deep : Prop) (p : Parse α) (s : ParseState) (a : α) (s' : ParseState) : Prop :=
  p s = .ok a s' ∨ deep ∧ ∃ e s₁, p s = .error e s₁ ∧ e.cause = .tooDeep

namespace Finds

variable {deep : Prop} {p : Parse α} {f : α → Parse β} {s s₁ s' : ParseState} {a : α} {b : β}

theorem result : Finds deep (pure a) s a s := .inl rfl

/-- Where nesting may be too deep, breaking off for it is as good as any result. -/
theorem tooDeep (h : deep) : Finds deep (fail .tooDeep : Parse α) s a s' :=
  .inr ⟨h, _, _, rfl, rfl⟩

theorem mono {deep' : Prop} (h : Finds deep p s a s') (hd : deep → deep') :
    Finds deep' p s a s' := by
  rcases h with h | ⟨h, hp⟩
  · exact .inl h
  · exact .inr ⟨hd h, hp⟩

theorem congr {q : Parse α} (h : p s = q s) (hq : Finds deep q s a s') : Finds deep p s a s' := by
  unfold Finds
  rwa [h]

theorem bind (hp : Finds deep p s a s₁) (hf : Finds deep (f a) s₁ b s') :
    Finds deep (p >>= f) s b s' := by
  rcases hp with hp | ⟨hd, e, s₂, hp, he⟩
  · unfold Finds
    rw [bind_of_ok hp]
    exact hf
  · exact .inr ⟨hd, e, s₂, bind_of_error hp, he⟩

theorem look : Finds deep look s s.cursor.rest.head? s := .inl rfl

theorem skip {t : Token} (h : s.Passes [t] s') : Finds deep skip s () s' := by
  obtain ⟨-, rfl⟩ := h
  exact .inl rfl

theorem expect {t : Token} {kind : TokenKind} {cause : SyntaxCause} (h : s.Passes [t] s')
    (hk : t.kind = kind) : Finds deep (expect kind cause) s t s' := by
  have hr := h.head
  obtain ⟨-, rfl⟩ := h
  left
  unfold Parse.expect
  rw [hr]
  exact if_pos hk

/-- A token of one of the kinds is accepted. -/
theorem accept_some {t : Token} {kinds : List TokenKind} (h : s.Passes [t] s')
    (hk : t.kind ∈ kinds) : Finds deep (accept kinds) s (some t) s' := by
  have hr := h.head
  obtain ⟨-, rfl⟩ := h
  left
  unfold Parse.accept
  rw [hr]
  exact if_pos (by simpa using hk)

/-- A token of another kind is not. -/
theorem accept_none {kinds : List TokenKind}
    (h : ∀ t, s.cursor.rest.head? = some t → t.kind ∉ kinds) :
    Finds deep (accept kinds) s none s := by
  left
  unfold Parse.accept
  split
  · rfl
  · next t ts hr =>
    rw [hr] at h
    exact if_neg (by simpa using h t rfl)

end Finds

/-! ## Expressions -/

/-- What follows cannot extend an expression. -/
def EndsPhrase (rest : List Token) : Prop :=
  tierOf? rest = none ∧ ∀ t, rest.head? = some t → t.kind ≠ .equal

/-- Reading an operand of the tiers amounts to the fold onto the operand `e`. -/
def FindsLeft (room least : Nat) (s : ParseState) (e : Expr) (s' : ParseState) : Prop :=
  tiers (unary room) least s = climbAll (unary room) least e s' ∨
    room < e.nesting ∧ ∃ err s₁, tiers (unary room) least s = .error err s₁ ∧ err.cause = .tooDeep

/-- A prefix operator, or what binds more tightly, is read by `unary`. -/
def UnaryComplete (ts : List Token) (e : Expr) : Prop :=
  ∀ room s s', s.Passes ts s' → Finds (room < e.nesting) (unary room) s e s'

/-- An operand of level `k` is read as the left operand of whatever operators follow, as long as
they do not bind more tightly. -/
def LeftComplete (k : Nat) (ts : List Token) (e : Expr) : Prop :=
  ∀ room s s' least, s.Passes ts s' → least ≤ k →
    (∀ tier, tierOf? s'.cursor.rest = some tier → tier.level ≤ k) → FindsLeft room least s e s'

/-- An expression is read by `expression`. -/
def FullComplete (ts : List Token) (e : Expr) : Prop :=
  ∀ room s s', s.Passes ts s' → EndsPhrase s'.cursor.rest →
    Finds (room ≤ e.nesting) (expression room) s e s'

/-- An operand is found on every level. -/
theorem UnaryComplete.left {ts : List Token} {e : Expr} (h : UnaryComplete ts e) (k : Nat) :
    LeftComplete k ts e := by
  intro room s s' least hs _ _
  unfold FindsLeft
  rw [tiers_eq]
  rcases h room s s' hs with hu | ⟨hd, err, s₁, hu, herr⟩
  · exact .inl (bind_of_ok hu)
  · exact .inr ⟨hd, err, s₁, bind_of_error hu, herr⟩

/-- In front of something that is no operator, reading an operand amounts to reading the tiers. -/
theorem FindsLeft.finds {room least : Nat} {s s' : ParseState} {e : Expr}
    (h : FindsLeft room least s e s')
    (hstop : ∀ tier, tierOf? s'.cursor.rest = some tier → tier.level < least) :
    Finds (room < e.nesting) (tiers (unary room) least) s e s' := by
  rcases h with h | h
  · exact .inl (h.trans (climbAll_of_stop hstop))
  · exact .inr h

/-- What is found on a level is found as an expression, as nothing binds more loosely but an
assignment. -/
theorem LeftComplete.full {k : Nat} {ts : List Token} {e : Expr} (hk : 1 ≤ k)
    (h : LeftComplete k ts e) : FullComplete ts e := by
  intro room s s' hs hend
  have hnone : ∀ tier, tierOf? s'.cursor.rest ≠ some tier := by simp [hend.1]
  cases room with
  | zero => exact .tooDeep (Nat.zero_le _)
  | succ room =>
    have htiers := (h room s s' 1 hs hk fun tier ht => absurd ht (hnone tier)).finds
      fun tier ht => absurd ht (hnone tier)
    refine .bind (htiers.mono Nat.succ_le_of_lt) (.bind (.accept_none fun t ht => ?_) .result)
    simpa using hend.2 t ht

/-- An operation is found if its operands are, the right one on the next tighter level. -/
theorem leftComplete_operation {tier : Tier} {op : Token} {ls rs : List Token} {l r : Expr}
    (ht : Tier.of? op.kind = some tier) (hl : LeftComplete tier.level ls l)
    (hr : LeftComplete (tier.level + 1) rs r) :
    LeftComplete tier.level (ls ++ op :: rs) (tier.join l op r) := by
  intro room s s' least hs hleast hnext
  obtain ⟨s₁, hs₁, hs⟩ := passes_append.mp hs
  have hop := hs.head
  obtain ⟨s₂, hs₂, hs⟩ := passes_cons.mp hs
  -- the operator itself is what follows the left operand
  have hnext₁ : ∀ tier', tierOf? s₁.cursor.rest = some tier' → tier'.level ≤ tier.level := by
    intro tier' h'
    rw [hop] at h'
    obtain rfl : tier = tier' := Option.some.inj (ht.symm.trans h')
    exact Nat.le_refl _
  have hdeep : room < l.nesting ∨ room < r.nesting → room < (tier.join l op r).nesting := by
    rw [tier.nesting_join]
    omega
  unfold FindsLeft
  rcases hl room s s₁ least hs₁ hleast hnext₁ with hleft | ⟨hd, h⟩
  · have hadvance : s₁.advance = s₂ := hs₂.2.symm
    rw [hleft, climbAll_of_fold (composed_unary room) hop ht hleast, hadvance]
    have hright := (hr room s₂ s' (tier.level + 1) hs (Nat.le_refl _)
      fun tier' h' => Nat.le_succ_of_le (hnext tier' h')).finds
      fun tier' h' => Nat.lt_succ_of_le (hnext tier' h')
    rcases hright with hright | ⟨hd, err, s₃, hright, herr⟩
    · exact .inl (bind_of_ok hright)
    · exact .inr ⟨hdeep (.inr hd), err, s₃, bind_of_error hright, herr⟩
  · exact .inr ⟨hdeep (.inl hd), h⟩

/-- A prefix operator is found in front of an operand. -/
theorem unaryComplete_negation {op : Token} {ts : List Token} {e : Expr}
    (ho : op.kind = .bang ∨ op.kind = .minus) (h : UnaryComplete ts e) :
    UnaryComplete (op :: ts) (.unary op e op.line) := by
  intro room s s' hs
  obtain ⟨s₁, hs₁, hs⟩ := passes_cons.mp hs
  cases room with
  | zero => exact .tooDeep (Nat.succ_pos _)
  | succ room =>
    refine .bind (.accept_some hs₁ (by simpa using ho)) (.bind ?_ .result)
    exact (h room s₁ s' hs).mono Nat.succ_lt_succ

/-- What does not begin with a prefix operator is read as a primary expression. -/
theorem finds_unary_of_primary {room : Nat} {s s' : ParseState} {e : Expr} {t : Token}
    {rest : List Token} (hr : s.cursor.rest = t :: rest) (hbang : t.kind ≠ .bang)
    (hminus : t.kind ≠ .minus)
    (h : Finds (room + 1 < e.nesting) (primaryOf (expression room)) s e s') :
    Finds (room + 1 < e.nesting) (unary (room + 1)) s e s' := by
  refine .bind (.accept_none fun t' ht' => ?_) h
  rw [hr] at ht'
  cases ht'
  simp [hbang, hminus]

/-- A token that is an expression by itself is found. -/
theorem unaryComplete_atom {t : Token} {e : Expr} (h : Expr.ofToken? t = some e) :
    UnaryComplete [t] e := by
  intro room s s' hs
  have hr := hs.head
  cases room with
  | zero => exact .tooDeep e.nesting_pos
  | succ room =>
    have hkind : t.kind ≠ .bang ∧ t.kind ≠ .minus := by
      constructor <;> intro hk <;> simp [Expr.ofToken?, hk] at h
    refine finds_unary_of_primary hr hkind.1 hkind.2 ?_
    rw [primaryOf_eq]
    refine .bind .look ?_
    simp only [hr, List.head?_cons, h]
    exact .bind (.skip hs) .result

/-- Parentheses are found around any expression. -/
theorem unaryComplete_parentheses {left right : Token} {ts : List Token} {e : Expr}
    (hl : left.kind = .leftParen) (h : FullComplete ts e) (hr : right.kind = .rightParen) :
    UnaryComplete (left :: ts ++ [right]) (.grouping e left.line) := by
  intro room s s' hs
  have hhead := hs.head
  obtain ⟨s₁, hs₁, hs⟩ := passes_cons.mp hs
  obtain ⟨s₂, hs₂, hs₃⟩ := passes_append.mp hs
  cases room with
  | zero => exact .tooDeep (Nat.succ_pos _)
  | succ room =>
    have hnone : Expr.ofToken? left = none := by simp [Expr.ofToken?, hl]
    have hend : EndsPhrase s₂.cursor.rest := by
      rw [hs₃.head]
      simp [EndsPhrase, tierOf?, hr, Tier.of?]
    refine finds_unary_of_primary hhead (by simp [hl]) (by simp [hl]) ?_
    rw [primaryOf_eq]
    refine .bind .look ?_
    simp only [hhead, List.head?_cons, hnone, if_pos hl]
    refine .bind (.skip hs₁) (.bind ((h room s₁ s₂ hs₂ hend).mono ?_)
      (.bind (.expect hs₃ hr) .result))
    intro hd
    exact Nat.succ_lt_succ (Nat.lt_succ_of_le hd)

/-- An assignment is found if its value is. -/
theorem fullComplete_assignment {name sign : Token} {ts : List Token} {e : Expr}
    (hn : name.kind = .identifier) (hs : sign.kind = .equal) (he : FullComplete ts e) :
    FullComplete (name :: sign :: ts) (.assign name e name.line) := by
  intro room s s' h hend
  obtain ⟨s₁, h₁, h⟩ := passes_cons.mp h
  have hsign := h.head
  obtain ⟨s₂, h₂, h₃⟩ := passes_cons.mp h
  cases room with
  | zero => exact .tooDeep (Nat.zero_le _)
  | succ room =>
    -- the name is read as an operand, which the sign of assignment ends
    have hnone : ∀ tier, tierOf? s₁.cursor.rest ≠ some tier := by
      simp [hsign, tierOf?, hs, Tier.of?]
    have htarget : Finds (room < 1) (tiers (unary room) 1) s (.read name name.line) s₁ :=
      ((unaryComplete_atom (by simp [Expr.ofToken?, hn])).left 1 room s s₁ 1 h₁ (Nat.le_refl _)
        fun tier ht => absurd ht (hnone tier)).finds fun tier ht => absurd ht (hnone tier)
    refine .bind (htarget.mono ?_) (.bind (.accept_some h₂ (by simpa using hs))
      (.bind ((he room s₂ s' h₃ hend).mono ?_) .result))
    · intro hd
      simp only [Expr.nesting]
      omega
    · intro hd
      simp only [Expr.nesting]
      omega

/-- The tokens of an expression are read as that expression at every place of the grammar that its
level admits. -/
theorem complete_of_phrase {k : Nat} {ts : List Token} {e : Expr} (h : Phrase k ts e) :
    (7 ≤ k → UnaryComplete ts e) ∧ (1 ≤ k → LeftComplete k ts e) ∧ FullComplete ts e := by
  induction h with
  | tighter _ ih =>
    obtain ⟨hu, hl, hf⟩ := ih
    refine ⟨fun hk => hu (by omega), fun hk room s s' least hs hleast hnext => ?_, hf⟩
    exact hl (by omega) room s s' least hs (by omega)
      fun tier ht => Nat.le_succ_of_le (hnext tier ht)
  | assignment hn hs _ ih =>
    exact ⟨by omega, by omega, fullComplete_assignment hn hs ih.2.2⟩
  | @operation tier op ls rs l r ht _ _ ihl ihr =>
    have hpos : 1 ≤ tier.level := by cases tier <;> decide
    have hleft := leftComplete_operation ht (ihl.2.1 hpos) (ihr.2.1 (Nat.succ_pos _))
    have hlt := tier.level_lt
    exact ⟨by omega, fun _ => hleft, hleft.full hpos⟩
  | negation ho _ ih =>
    have hu := unaryComplete_negation ho (ih.1 (Nat.le_refl _))
    exact ⟨fun _ => hu, fun _ => hu.left _, (hu.left 1).full (Nat.le_refl _)⟩
  | atom h =>
    have hu := unaryComplete_atom h
    exact ⟨fun _ => hu, fun _ => hu.left _, (hu.left 1).full (Nat.le_refl _)⟩
  | parentheses hl _ hr ih =>
    have hu := unaryComplete_parentheses hl ih.2.2 hr
    exact ⟨fun _ => hu, fun _ => hu.left _, (hu.left 1).full (Nat.le_refl _)⟩

/-- Every expression of the grammar is found. -/
theorem finds_expression {ts : List Token} {e : Expr} (h : Phrase 0 ts e) : FullComplete ts e :=
  (complete_of_phrase h).2.2

/-! ## The first token -/

end Parse

/-- Whether an expression can begin with a token of this kind. -/
def TokenKind.startsPhrase : TokenKind → Bool
  | .bang | .minus | .leftParen | .falseWord | .trueWord | .nilWord | .number | .text
  | .identifier => true
  | _ => false

/-- An expression has a first token, and that token tells that it is one. -/
theorem Phrase.starts {k : Nat} {ts : List Token} {e : Expr} (h : Phrase k ts e) :
    ∃ t us, ts = t :: us ∧ t.kind.startsPhrase = true := by
  induction h with
  | tighter _ ih => exact ih
  | assignment hn => exact ⟨_, _, rfl, by simp [hn, TokenKind.startsPhrase]⟩
  | operation _ _ _ ihl =>
    obtain ⟨t, us, rfl, hk⟩ := ihl
    exact ⟨t, _, rfl, hk⟩
  | negation ho =>
    refine ⟨_, _, rfl, ?_⟩
    rcases ho with ho | ho <;> simp [ho, TokenKind.startsPhrase]
  | @atom t e h =>
    refine ⟨t, [], rfl, ?_⟩
    cases hk : t.kind <;> simp [Expr.ofToken?, hk] at h <;> rfl
  | parentheses hl => exact ⟨_, _, rfl, by simp [hl, TokenKind.startsPhrase]⟩

/-- Whether a statement can begin with a token of this kind. -/
def TokenKind.startsSentence (k : TokenKind) : Bool :=
  k.startsPhrase || [forWord, ifWord, printWord, whileWord, leftBrace].contains k

theorem ExpressionClause.starts {ts : List Token} {s : Stmt} (h : ExpressionClause ts s) :
    ∃ t us, ts = t :: us ∧ t.kind.startsPhrase = true := by
  obtain ⟨he, -⟩ := h
  obtain ⟨t, us, rfl, hk⟩ := he.starts
  exact ⟨t, _, rfl, hk⟩

/-- Every statement starts with a token that can start one. -/
theorem Sentence.starts {d : Bool} {ts : List Token} {s : Stmt} (h : Sentence d ts s) :
    ∃ t us, ts = t :: us ∧ t.kind.startsSentence = true := by
  cases h with
  | expression h =>
    obtain ⟨t, us, rfl, hk⟩ := h.starts
    exact ⟨t, us, rfl, by simp [TokenKind.startsSentence, hk]⟩
  | print hw | ifThen hw | ifElse hw | whileLoop hw | forLoop hw | block hw =>
    exact ⟨_, _, rfl, by rw [hw]; rfl⟩

/-- A declaration or statement begins neither with a closing brace nor with an "else". -/
theorem Declaration.starts {ts : List Token} {s : Stmt} (h : Declaration ts s) :
    ∃ t us, ts = t :: us ∧ t.kind ≠ .rightBrace ∧ t.kind ≠ .elseWord := by
  cases h with
  | variableDeclaration hw => exact ⟨_, _, rfl, by simp [hw]⟩
  | statement h =>
    obtain ⟨t, us, rfl, hk⟩ := h.starts
    refine ⟨t, us, rfl, ?_, ?_⟩ <;> intro h <;> simp [h, TokenKind.startsSentence] at hk <;>
      cases hk

/-- The tokens behind declarations in a row begin with an "else" only if there are no declarations
left. -/
theorem Declarations.starts {ts : List Token} {ss : List Stmt} (h : Declarations ts ss)
    (rest : List Token) (hrest : ∀ t, rest.head? = some t → t.kind ≠ .elseWord) :
    ∀ t, (ts ++ rest).head? = some t → t.kind ≠ .elseWord := by
  cases h with
  | nil => exact hrest
  | cons h _ =>
    obtain ⟨t, us, rfl, -, hk⟩ := h.starts
    intro t' ht'
    cases ht'
    exact hk

namespace Parse

/-! ## Statements -/

/-- The step reads every expression, up to the depth of nesting. -/
def ReadsPhrases (value : Parse Expr) : Prop :=
  ∀ {ts : List Token} {e : Expr} {s s' : ParseState}, Phrase 0 ts e → s.Passes ts s' →
    EndsPhrase s'.cursor.rest → Finds True value s e s'

/-- The step reads every statement, up to the depth of nesting. -/
def ReadsSentences (nested : Parse Stmt) : Prop :=
  ∀ {d : Bool} {ts : List Token} {st : Stmt} {s s' : ParseState}, Sentence d ts st →
    s.Passes ts s' → Complete d s'.cursor.rest → Finds True nested s st s'

theorem readsPhrases_expression (room : Nat) : ReadsPhrases (expression room) :=
  fun h hs hend => (finds_expression h room _ _ hs hend).mono fun _ => True.intro

theorem endsPhrase_cons {t : Token} {ts : List Token}
    (h : t.kind = .semicolon ∨ t.kind = .rightParen) : EndsPhrase (t :: ts) := by
  rcases h with h | h <;> simp [EndsPhrase, tierOf?, h, Tier.of?]

/-- An expression ends in front of a semicolon or a closing parenthesis. -/
theorem endsPhrase_of_passes {s s' : ParseState} {t : Token} {ts : List Token}
    (h : s.Passes (t :: ts) s') (hk : t.kind = .semicolon ∨ t.kind = .rightParen) :
    EndsPhrase s.cursor.rest := by
  rw [h.head]
  exact endsPhrase_cons hk

section

variable {value : Parse Expr} {nested declaration : Parse Stmt} {ts : List Token} {st : Stmt}
  {s s' : ParseState}

/-- An expression and its semicolon are found. -/
theorem finds_expressionStatement (hv : ReadsPhrases value) (h : ExpressionClause ts st)
    (hs : s.Passes ts s') : Finds True (expressionStatement value) s st s' := by
  obtain ⟨he, hk⟩ := h
  obtain ⟨s₁, h₁, h₂⟩ := passes_append.mp hs
  have hend : EndsPhrase s₁.cursor.rest := endsPhrase_of_passes h₂ (.inl hk)
  exact .bind (hv he h₁ hend) (.bind (.expect h₂ hk) .result)

/-- A variable declaration is found, with or without a value. -/
theorem finds_variableDeclaration (hv : ReadsPhrases value) (h : VariableClause ts st)
    (hs : s.Passes ts s') : Finds True (variableDeclaration value) s st s' := by
  cases h with
  | bare hn hk =>
    obtain ⟨s₁, h₁, h₂⟩ := passes_cons.mp hs
    refine .bind (.expect h₁ hn) (.bind (.accept_none fun t ht => ?_)
      (.bind .result (.bind (.expect h₂ hk) .result)))
    rw [h₂.head] at ht
    cases ht
    simp [hk]
  | initialized hn hq he hk =>
    obtain ⟨s₃, hs, h₄⟩ := passes_append.mp hs
    obtain ⟨s₁, h₁, hs⟩ := passes_cons.mp hs
    obtain ⟨s₂, h₂, h₃⟩ := passes_cons.mp hs
    have hend : EndsPhrase s₃.cursor.rest := endsPhrase_of_passes h₄ (.inl hk)
    exact .bind (.expect h₁ hn) (.bind (.accept_some h₂ (by simp [hq]))
      (.bind (hv he h₃ hend) (.bind .result (.bind (.expect h₄ hk) .result))))

/-- A declaration is found, unless a word follows that continues it. -/
theorem finds_declarationOf (hv : ReadsPhrases value) (hn : ReadsSentences nested)
    (h : Declaration ts st) (hs : s.Passes ts s')
    (hrest : ∀ t, s'.cursor.rest.head? = some t → t.kind ≠ .elseWord) :
    Finds True (declarationOf value nested) s st s' := by
  cases h with
  | variableDeclaration hw h =>
    obtain ⟨s₁, h₁, h₂⟩ := passes_cons.mp hs
    exact .bind (.accept_some h₁ (by simp [hw])) (finds_variableDeclaration hv h h₂)
  | statement h =>
    refine .bind (.accept_none fun t ht => ?_) (hn h hs fun _ => hrest)
    obtain ⟨t', us, rfl, hk⟩ := h.starts
    rw [hs.head] at ht
    cases ht
    intro hvar
    rw [List.mem_singleton.mp hvar] at hk
    cases hk

/-- A row of declarations is read up to the end or a closing brace. -/
theorem finds_declarationsAll (hv : ReadsPhrases value) (hn : ReadsSentences nested)
    (hc : Consumes (declarationOf value nested)) {ss : List Stmt} (h : Declarations ts ss)
    (hs : s.Passes ts s') (hrest : ∀ t, s'.cursor.rest.head? = some t → t.kind = .rightBrace) :
    Finds True (declarationsAll (declarationOf value nested)) s ss s' := by
  have helse : ∀ t, s'.cursor.rest.head? = some t → t.kind ≠ .elseWord := by
    intro t ht
    simp [hrest t ht]
  induction ss generalizing ts s with
  | nil =>
    cases h
    obtain rfl := passes_nil.mp hs
    exact .inl (declarationsAll_of_stop hrest)
  | cons st ss ih =>
    cases h with
    | cons h hss =>
      obtain ⟨s₁, h₁, h₂⟩ := passes_append.mp hs
      obtain ⟨t, us, rfl, hbrace, -⟩ := h.starts
      have hnext := hss.starts s'.cursor.rest helse
      rw [← h₂.1] at hnext
      refine .congr (declarationsAll_of_go hc h₁.head hbrace) ?_
      exact .bind (finds_declarationOf hv hn h h₁ hnext) (.bind (ih hss h₂) .result)

/-- An optional clause is found, whether it is there or not. -/
theorem finds_optional (hv : ReadsPhrases value) {o : Option Expr} {kind : TokenKind}
    (h : OptionalPhrase ts o) (hs : s.Passes ts s') {t : Token} {us : List Token}
    (hr : s'.cursor.rest = t :: us) (ht : t.kind = kind)
    (hkind : kind = .semicolon ∨ kind = .rightParen) :
    Finds True (optional value kind) s o s' := by
  cases h with
  | absent =>
    obtain rfl := passes_nil.mp hs
    refine .bind .look ?_
    rw [hr]
    simp only [List.head?_cons, if_pos ht]
    exact .result
  | present h =>
    have hfinds := hv h hs (by rw [hr]; exact endsPhrase_cons (ht ▸ hkind))
    obtain ⟨t', us', rfl, hk⟩ := h.starts
    have hne : t'.kind ≠ kind := by
      intro h
      rw [h] at hk
      rcases hkind with rfl | rfl <;> cases hk
    refine .bind .look ?_
    rw [hs.head]
    simp only [List.head?_cons, if_neg hne]
    exact .bind hfinds .result

/-- The first clause of a loop is found in each of its forms. -/
theorem finds_firstClause (hv : ReadsPhrases value) {o : Option Stmt} (h : FirstClause ts o)
    (hs : s.Passes ts s') : Finds True (firstClause value) s o s' := by
  cases h with
  | absent hk => exact .bind (.accept_some hs (by simp [hk])) .result
  | variableDeclaration hw h =>
    have hhead := hs.head
    obtain ⟨s₁, h₁, h₂⟩ := passes_cons.mp hs
    refine .bind (.accept_none fun t ht => ?_) (.bind (.accept_some h₁ (by simp [hw]))
      (.bind (finds_variableDeclaration hv h h₂) .result))
    rw [hhead] at ht
    cases ht
    simp [hw]
  | expression h =>
    have hfinds := finds_expressionStatement hv h hs
    obtain ⟨t', us, rfl, hk⟩ := h.starts
    have hne : ∀ kind, kind.startsPhrase = false → ∀ t, s.cursor.rest.head? = some t →
        t.kind ∉ [kind] := by
      intro kind hkind t ht hmem
      rw [hs.head] at ht
      cases ht
      rw [List.mem_singleton.mp hmem, hkind] at hk
      cases hk
    exact .bind (.accept_none (hne _ rfl)) (.bind (.accept_none (hne _ rfl)) (.bind hfinds .result))

/-- A conditional without an alternative is found if none follows. -/
theorem finds_conditional (hv : ReadsPhrases value) (hn : ReadsSentences nested) {d : Bool}
    {left right : Token} {cs : List Token} {c : Expr} {line : Int} (hl : left.kind = .leftParen)
    (hc : Phrase 0 cs c) (hr : right.kind = .rightParen) (h : Sentence d ts st)
    (hs : s.Passes (left :: cs ++ right :: ts) s') (hrest : Complete true s'.cursor.rest) :
    Finds True (conditional value nested line) s (.ifThen c st line) s' := by
  obtain ⟨s₂, hs, hs'⟩ := passes_append.mp hs
  obtain ⟨s₁, h₁, h₂⟩ := passes_cons.mp hs
  have hend : EndsPhrase s₂.cursor.rest := endsPhrase_of_passes hs' (.inr hr)
  obtain ⟨s₃, h₃, h₄⟩ := passes_cons.mp hs'
  refine .bind (.expect h₁ hl) (.bind (hv hc h₂ hend) (.bind (.expect h₃ hr)
    (.bind (hn h h₄ fun _ => hrest rfl) (.bind (.accept_none fun t ht => ?_) .result))))
  simpa using hrest rfl t ht

/-- The body of a conditional with "else" does not dangle, so it leaves the "else" behind. -/
theorem finds_conditional_else (hv : ReadsPhrases value) (hn : ReadsSentences nested) {d : Bool}
    {left right other : Token} {cs us : List Token} {c : Expr} {st' : Stmt} {line : Int}
    (hl : left.kind = .leftParen) (hc : Phrase 0 cs c) (hr : right.kind = .rightParen)
    (h : Sentence false ts st) (ho : other.kind = .elseWord) (h' : Sentence d us st')
    (hs : s.Passes (left :: cs ++ right :: (ts ++ other :: us)) s')
    (hrest : Complete d s'.cursor.rest) :
    Finds True (conditional value nested line) s (.ifElse c st st' line) s' := by
  obtain ⟨s₂, hs, hs'⟩ := passes_append.mp hs
  obtain ⟨s₁, h₁, h₂⟩ := passes_cons.mp hs
  have hend : EndsPhrase s₂.cursor.rest := endsPhrase_of_passes hs' (.inr hr)
  obtain ⟨s₃, h₃, hs'⟩ := passes_cons.mp hs'
  obtain ⟨s₄, h₄, hs'⟩ := passes_append.mp hs'
  obtain ⟨s₅, h₅, h₆⟩ := passes_cons.mp hs'
  exact .bind (.expect h₁ hl) (.bind (hv hc h₂ hend) (.bind (.expect h₃ hr)
    (.bind (hn h h₄ (by simp [Complete])) (.bind (.accept_some h₅ (by simp [ho]))
      (.bind (hn h' h₆ hrest) .result)))))

/-- A loop is found if its statement is. -/
theorem finds_whileLoop (hv : ReadsPhrases value) (hn : ReadsSentences nested) {d : Bool}
    {left right : Token} {cs : List Token} {c : Expr} {line : Int} (hl : left.kind = .leftParen)
    (hc : Phrase 0 cs c) (hr : right.kind = .rightParen) (h : Sentence d ts st)
    (hs : s.Passes (left :: cs ++ right :: ts) s') (hrest : Complete d s'.cursor.rest) :
    Finds True (whileLoop value nested line) s (.loop c st line) s' := by
  obtain ⟨s₂, hs, hs'⟩ := passes_append.mp hs
  obtain ⟨s₁, h₁, h₂⟩ := passes_cons.mp hs
  have hend : EndsPhrase s₂.cursor.rest := endsPhrase_of_passes hs' (.inr hr)
  obtain ⟨s₃, h₃, h₄⟩ := passes_cons.mp hs'
  exact .bind (.expect h₁ hl) (.bind (hv hc h₂ hend) (.bind (.expect h₃ hr)
    (.bind (hn h h₄ hrest) .result)))

/-- The clauses of a loop are found, each of them being optional. -/
theorem finds_forClauses (hv : ReadsPhrases value) {left semicolon right : Token}
    {is cs ns : List Token} {clauses : ForClauses} (hl : left.kind = .leftParen)
    (hi : FirstClause is clauses.first) (hc : OptionalPhrase cs clauses.condition)
    (hm : semicolon.kind = .semicolon) (hn : OptionalPhrase ns clauses.step)
    (hr : right.kind = .rightParen)
    (hs : s.Passes (left :: is ++ (cs ++ semicolon :: (ns ++ [right]))) s') :
    Finds True (forClauses value) s clauses s' := by
  obtain ⟨s₂, hs, hs'⟩ := passes_append.mp hs
  obtain ⟨s₁, h₁, h₂⟩ := passes_cons.mp hs
  obtain ⟨s₃, h₃, hs'⟩ := passes_append.mp hs'
  have hsemicolon := hs'.head
  obtain ⟨s₄, h₄, hs'⟩ := passes_cons.mp hs'
  obtain ⟨s₅, h₅, h₆⟩ := passes_append.mp hs'
  exact .bind (.expect h₁ hl) (.bind (finds_firstClause hv hi h₂)
    (.bind (finds_optional hv hc h₃ hsemicolon hm (.inl rfl)) (.bind (.expect h₄ hm)
      (.bind (finds_optional hv hn h₅ h₆.head hr (.inr rfl)) (.bind (.expect h₆ hr) .result)))))

/-- Every statement of the grammar is found by its first token. -/
theorem finds_statementOf (hv : ReadsPhrases value) (hn : ReadsSentences nested)
    (hc : Consumes (declarationOf value nested)) : ReadsSentences (statementOf value nested) := by
  intro d ts st s s' h hs hrest
  cases h with
  | expression h =>
    have hfinds := finds_expressionStatement hv h hs
    obtain ⟨t', us, rfl, hk⟩ := h.starts
    -- no expression begins with a word that another statement begins with
    refine .bind (.accept_none fun t ht => ?_) hfinds
    rw [hs.head] at ht
    cases ht
    intro hmem
    simp only [List.mem_cons, List.not_mem_nil, or_false] at hmem
    rcases hmem with h | h | h | h | h <;> rw [h] at hk <;> cases hk
  | print hw he hk =>
    obtain ⟨s₂, hs, h₃⟩ := passes_append.mp hs
    obtain ⟨s₁, h₁, h₂⟩ := passes_cons.mp hs
    refine .bind (.accept_some h₁ (by simp [hw])) ?_
    simp only [hw]
    have hend : EndsPhrase s₂.cursor.rest := endsPhrase_of_passes h₃ (.inl hk)
    exact .bind (hv he h₂ hend) (.bind (.expect h₃ hk) .result)
  | block hl hss hr =>
    obtain ⟨s₂, hs, h₃⟩ := passes_append.mp hs
    obtain ⟨s₁, h₁, h₂⟩ := passes_cons.mp hs
    refine .bind (.accept_some h₁ (by simp [hl])) ?_
    simp only [hl]
    refine .bind (.congr (congrFun (blockOf_eq _) _) ?_) .result
    refine .bind (finds_declarationsAll hv hn hc hss h₂ fun t ht => ?_)
      (.bind (.expect h₃ hr) .result)
    rw [h₃.head] at ht
    cases ht
    exact hr
  | ifThen hw hl hcond hr h =>
    obtain ⟨s₁, h₁, hs⟩ := passes_cons.mp hs
    refine .bind (.accept_some h₁ (by simp [hw])) ?_
    simp only [hw]
    exact finds_conditional hv hn hl hcond hr h hs hrest
  | ifElse hw hl hcond hr h ho h' =>
    obtain ⟨s₁, h₁, hs⟩ := passes_cons.mp hs
    refine .bind (.accept_some h₁ (by simp [hw])) ?_
    simp only [hw]
    exact finds_conditional_else hv hn hl hcond hr h ho h' hs hrest
  | whileLoop hw hl hcond hr h =>
    obtain ⟨s₁, h₁, hs⟩ := passes_cons.mp hs
    refine .bind (.accept_some h₁ (by simp [hw])) ?_
    simp only [hw]
    exact finds_whileLoop hv hn hl hcond hr h hs hrest
  | @forLoop word left semicolon right is cs ns ts first condition step st d hw hl hi hcond hm hstep
      hr h =>
    obtain ⟨s₁, h₁, hs⟩ := passes_cons.mp hs
    refine .bind (.accept_some h₁ (by simp [hw])) ?_
    simp only [hw]
    -- the clauses are found as a whole, and then the body behind them
    have hs : s₁.Passes (left :: is ++ (cs ++ semicolon :: (ns ++ [right])) ++ ts) s' := by
      simpa using hs
    obtain ⟨s₂, h₂, h₃⟩ := passes_append.mp hs
    have hclauses : Finds True (forClauses value) s₁ ⟨first, condition, step⟩ s₂ :=
      finds_forClauses hv hl hi hcond hm hstep hr h₂
    refine .bind hclauses (.bind (hn h h₃ hrest) ?_)
    rw [Stmt.forLoop_eq_unrolled]
    exact .result

end

/-- The tokens of a statement are read as that statement, unless an "else" behind them could still
be taken. -/
theorem readsSentences_statement (room : Nat) : ReadsSentences (statement room) := by
  induction room with
  | zero => exact fun _ _ _ => .tooDeep True.intro
  | succ room ih =>
    exact finds_statementOf (readsPhrases_expression room) ih (consumes_declaration room)

/-- Every declaration of the grammar is found, unless a word follows that continues it. -/
theorem finds_declaration (room : Nat) {ts : List Token} {st : Stmt} {s s' : ParseState}
    (h : Declaration ts st) (hs : s.Passes ts s')
    (hrest : ∀ t, s'.cursor.rest.head? = some t → t.kind ≠ .elseWord) :
    Finds True (declaration room) s st s' :=
  finds_declarationOf (readsPhrases_expression room) (readsSentences_statement room) h hs hrest

end Parse

end LoxScript
