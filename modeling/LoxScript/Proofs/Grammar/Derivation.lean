import LoxScript.Grammar.Program

/-!
# The grammar as a relation

Which tokens make up which tree, said without any order of reading. `Phrase k ts e` derives the
expression `e` from the tokens `ts`; the level `k` says how loosely its outermost operator may bind:

* level 0: assignments, `name = value`, where the value is again of level 0;
* levels 1 to 6: the operators of the tier of that level, with a left operand of the same level and
  a right operand of the next one, so that operators of one tier associate to the left;
* level 7: the prefix operators;
* level 8: literals, variables and parentheses.

A statement is derived together with the information whether it *dangles*, that is, whether it ends
in a conditional without "else". What stands between a condition and an "else" does not dangle; so an
"else" belongs to the nearest conditional that can take it.
-/

namespace LoxScript

/-- The tokens form the expression, and outside of parentheses it has only operators that bind at
the given level or more tightly. -/
inductive Phrase : (level : Nat) → List Token → Expr → Prop where
  /-- What binds more tightly may stand where a looser level is asked for. -/
  | tighter {k : Nat} {ts : List Token} {e : Expr} (h : Phrase (k + 1) ts e) : Phrase k ts e
  /-- The assignment of a value to a name. -/
  | assignment {name sign : Token} {ts : List Token} {e : Expr} (hn : name.kind = .identifier)
      (hs : sign.kind = .equal) (he : Phrase 0 ts e) :
      Phrase 0 (name :: sign :: ts) (.assign name e name.line)
  /-- An operator between two operands. -/
  | operation {tier : Tier} {op : Token} {ls rs : List Token} {l r : Expr}
      (ht : Tier.of? op.kind = some tier) (hl : Phrase tier.level ls l)
      (hr : Phrase (tier.level + 1) rs r) :
      Phrase tier.level (ls ++ op :: rs) (tier.join l op r)
  /-- An operator in front of its operand. -/
  | negation {op : Token} {ts : List Token} {e : Expr} (ho : op.kind = .bang ∨ op.kind = .minus)
      (he : Phrase 7 ts e) : Phrase 7 (op :: ts) (.unary op e op.line)
  /-- A literal or a variable. -/
  | atom {t : Token} {e : Expr} (h : Expr.ofToken? t = some e) : Phrase 8 [t] e
  /-- An expression in parentheses. -/
  | parentheses {left right : Token} {ts : List Token} {e : Expr} (hl : left.kind = .leftParen)
      (he : Phrase 0 ts e) (hr : right.kind = .rightParen) :
      Phrase 8 (left :: ts ++ [right]) (.grouping e left.line)

theorem Tier.level_lt (tier : Tier) : tier.level < 7 := by
  cases tier <;> decide

/-- What is derived at a level is derived at every looser one. -/
theorem Phrase.loosen {k j : Nat} {ts : List Token} {e : Expr} (h : Phrase k ts e) (hj : j ≤ k) :
    Phrase j ts e := by
  induction k with
  | zero =>
    obtain rfl : j = 0 := by omega
    exact h
  | succ k ih =>
    by_cases hk : j = k + 1
    · rwa [hk]
    · exact ih h.tighter (by omega)

/-- A token that is read as a variable is the name of that variable. -/
theorem Expr.ofToken?_eq_read {t name : Token} {line : Int}
    (h : Expr.ofToken? t = some (.read name line)) :
    t = name ∧ name.kind = .identifier ∧ line = name.line := by
  unfold Expr.ofToken? at h
  split at h
  case h_6 hk =>
    cases h
    exact ⟨rfl, hk, rfl⟩
  all_goals cases h

/-- The only phrase for a variable is its name. -/
theorem Phrase.eq_of_read {k : Nat} {ts : List Token} {name : Token} {line : Int}
    (h : Phrase k ts (.read name line)) : ts = [name] ∧ name.kind = .identifier := by
  generalize he : Expr.read name line = e at h
  induction h with
  | tighter _ ih => exact ih he
  | assignment => cases he
  | @operation tier => cases tier <;> cases he
  | negation => cases he
  | atom h =>
    subst he
    obtain ⟨rfl, hk, -⟩ := Expr.ofToken?_eq_read h
    exact ⟨rfl, hk⟩
  | parentheses => cases he

/-- The tokens form an expression, or there are none. -/
inductive OptionalPhrase : List Token → Option Expr → Prop where
  /-- No tokens. -/
  | absent : OptionalPhrase [] none
  /-- An expression. -/
  | present {ts : List Token} {e : Expr} (h : Phrase 0 ts e) : OptionalPhrase ts (some e)

/-- The tokens behind the word "var" form the declaration. -/
inductive VariableClause : List Token → Stmt → Prop where
  /-- A name alone. -/
  | bare {name semicolon : Token} (hn : name.kind = .identifier)
      (hs : semicolon.kind = .semicolon) :
      VariableClause [name, semicolon] (.declare name none name.line)
  /-- A name and its first value. -/
  | initialized {name sign semicolon : Token} {ts : List Token} {e : Expr}
      (hn : name.kind = .identifier) (hq : sign.kind = .equal) (he : Phrase 0 ts e)
      (hs : semicolon.kind = .semicolon) :
      VariableClause (name :: sign :: ts ++ [semicolon]) (.declare name (some e) name.line)

/-- The tokens form an expression statement. -/
inductive ExpressionClause : List Token → Stmt → Prop where
  /-- An expression and a semicolon. -/
  | intro {semicolon : Token} {ts : List Token} {e : Expr} (he : Phrase 0 ts e)
      (hs : semicolon.kind = .semicolon) :
      ExpressionClause (ts ++ [semicolon]) (.expression e e.line)

/-- The tokens form the first clause of a "for" loop, with its semicolon. -/
inductive FirstClause : List Token → Option Stmt → Prop where
  /-- A semicolon alone. -/
  | absent {semicolon : Token} (hs : semicolon.kind = .semicolon) : FirstClause [semicolon] none
  /-- The declaration of a variable. -/
  | variableDeclaration {word : Token} {ts : List Token} {s : Stmt} (hw : word.kind = .varWord)
      (h : VariableClause ts s) : FirstClause (word :: ts) (some s)
  /-- An expression statement. -/
  | expression {ts : List Token} {s : Stmt} (h : ExpressionClause ts s) : FirstClause ts (some s)

/-- What a "for" loop stands for: a "while" loop, which without a condition goes on for ever; its
body is followed by the step in a block, if there is a step, and it is preceded by the first clause
in a block, if there is a first clause. -/
def Stmt.unrolled (line : Int) (first : Option Stmt) (condition step : Option Expr) (body : Stmt) :
    Stmt :=
  let test := condition.getD (.literal (.bool true) line)
  match first, step with
  | none, none => .loop test body line
  | none, some e => .loop test (.block [body, .expression e e.line] line) line
  | some s, none => .block [s, .loop test body line] line
  | some s, some e => .block [s, .loop test (.block [body, .expression e e.line] line) line] line

/-- A loop with clauses is the loop that its clauses unroll to. -/
theorem Stmt.forLoop_eq_unrolled (line : Int) (clauses : ForClauses) (body : Stmt) :
    Stmt.forLoop line clauses body =
      .unrolled line clauses.first clauses.condition clauses.step body := by
  obtain ⟨first, condition, step⟩ := clauses
  cases first <;> cases step <;> rfl

mutual

/-- The tokens form the statement. The truth value says whether it dangles. -/
inductive Sentence : (dangles : Bool) → List Token → Stmt → Prop where
  /-- An expression statement. -/
  | expression {ts : List Token} {s : Stmt} (h : ExpressionClause ts s) : Sentence false ts s
  /-- Printing a value. -/
  | print {word semicolon : Token} {ts : List Token} {e : Expr} (hw : word.kind = .printWord)
      (he : Phrase 0 ts e) (hs : semicolon.kind = .semicolon) :
      Sentence false (word :: ts ++ [semicolon]) (.print e word.line)
  /-- A block. -/
  | block {left right : Token} {ts : List Token} {ss : List Stmt} (hl : left.kind = .leftBrace)
      (h : Declarations ts ss) (hr : right.kind = .rightBrace) :
      Sentence false (left :: ts ++ [right]) (.block ss left.line)
  /-- A conditional without "else". -/
  | ifThen {word left right : Token} {cs ts : List Token} {c : Expr} {s : Stmt} {d : Bool}
      (hw : word.kind = .ifWord) (hl : left.kind = .leftParen) (hc : Phrase 0 cs c)
      (hr : right.kind = .rightParen) (hs : Sentence d ts s) :
      Sentence true (word :: left :: cs ++ right :: ts) (.ifThen c s word.line)
  /-- A conditional with "else". What stands before the "else" does not dangle. -/
  | ifElse {word left right other : Token} {cs ts us : List Token} {c : Expr} {s t : Stmt} {d : Bool}
      (hw : word.kind = .ifWord) (hl : left.kind = .leftParen) (hc : Phrase 0 cs c)
      (hr : right.kind = .rightParen) (hs : Sentence false ts s) (ho : other.kind = .elseWord)
      (ht : Sentence d us t) :
      Sentence d (word :: left :: cs ++ right :: (ts ++ other :: us)) (.ifElse c s t word.line)
  /-- A "while" loop. -/
  | whileLoop {word left right : Token} {cs ts : List Token} {c : Expr} {s : Stmt} {d : Bool}
      (hw : word.kind = .whileWord) (hl : left.kind = .leftParen) (hc : Phrase 0 cs c)
      (hr : right.kind = .rightParen) (hs : Sentence d ts s) :
      Sentence d (word :: left :: cs ++ right :: ts) (.loop c s word.line)
  /-- A "for" loop. -/
  | forLoop {word left semicolon right : Token} {is cs ns ts : List Token} {first : Option Stmt}
      {condition step : Option Expr} {s : Stmt} {d : Bool} (hw : word.kind = .forWord)
      (hl : left.kind = .leftParen) (hi : FirstClause is first)
      (hc : OptionalPhrase cs condition) (hm : semicolon.kind = .semicolon)
      (hn : OptionalPhrase ns step) (hr : right.kind = .rightParen) (hs : Sentence d ts s) :
      Sentence d (word :: left :: is ++ (cs ++ semicolon :: (ns ++ right :: ts)))
        (.unrolled word.line first condition step s)

/-- The tokens form the declaration or statement. -/
inductive Declaration : List Token → Stmt → Prop where
  /-- The declaration of a variable. -/
  | variableDeclaration {word : Token} {ts : List Token} {s : Stmt} (hw : word.kind = .varWord)
      (h : VariableClause ts s) : Declaration (word :: ts) s
  /-- A statement. -/
  | statement {ts : List Token} {s : Stmt} {d : Bool} (h : Sentence d ts s) : Declaration ts s

/-- The tokens form the declarations, one after the other. -/
inductive Declarations : List Token → List Stmt → Prop where
  /-- No declarations. -/
  | nil : Declarations [] []
  /-- A declaration and those behind it. -/
  | cons {ts us : List Token} {s : Stmt} {ss : List Stmt} (h : Declaration ts s)
      (hs : Declarations us ss) : Declarations (ts ++ us) (s :: ss)

end

/-- A statement that dangles is not followed by an "else". -/
def Complete (dangles : Bool) (rest : List Token) : Prop :=
  dangles = true → ∀ t, rest.head? = some t → t.kind ≠ .elseWord

end LoxScript
