import Mathlib.Data.List.Forall2
import LoxScript.Proofs.Grammar.Completeness
import LoxScript.Proofs.Grammar.Soundness

/-!
# Expressions and the tokens they are written with

An expression, read from left to right, is a list of marks: `Expr.marks`. A mark stands for a token
as far as the tree records it: operators and names are kept as whole tokens, of a literal its value
and its line are kept, of an opening parenthesis the line, and of a closing parenthesis and a sign of
assignment nothing but that they are there.

Not every tree can be written without further parentheses. Those that can are the ones that respect
the precedence of their operators (`Expr.Respects`), and for them reading and writing are inverse to
each other (`reading_inverts_writing`).
-/

namespace LoxScript

open ParseState

/-! ## Trees that respect precedence -/

/-- How tightly the outermost operator of an expression binds. -/
def Expr.level : Expr → Nat
  | assign _ _ _ | malformed _ _ => 0
  | binary _ op _ _ | logical _ op _ _ => ((Tier.of? op.kind).map Tier.level).getD 0
  | unary _ _ _ => 7
  | literal _ _ | grouping _ _ | read _ _ => 8

/-- The operator belongs to a tier of the given sort, its left operand binds at least as tightly as
it does, and its right operand more tightly. -/
def Tier.Admits (connects : Bool) (op : Token) (left right : Expr) : Prop :=
  ∃ tier, Tier.of? op.kind = some tier ∧ tier.connects = connects ∧ tier.level ≤ left.level ∧
    tier.level < right.level

/-- All operators of the expression are those of the table and have operands that bind tightly
enough, assigned names are names, and every node is on the line of the token that it is named
after. -/
def Expr.Respects : Expr → Prop
  | literal _ _ => True
  | read name line => name.kind = .identifier ∧ line = name.line
  | grouping e _ => e.Respects
  | unary op e line =>
    (op.kind = .bang ∨ op.kind = .minus) ∧ line = op.line ∧ 7 ≤ e.level ∧ e.Respects
  | binary l op r line =>
    Tier.Admits false op l r ∧ line = op.line ∧ l.Respects ∧ r.Respects
  | logical l op r line =>
    Tier.Admits true op l r ∧ line = op.line ∧ l.Respects ∧ r.Respects
  | assign name e line => name.kind = .identifier ∧ line = name.line ∧ e.Respects
  | malformed _ _ => False

/-! ## The tokens of a tree -/

/-- What a tree records of a token. -/
inductive Mark where
  | token (t : Token)
  /-- A literal on the given line. -/
  | literal (v : Value) (line : Int)
  /-- An opening parenthesis on the given line. -/
  | opening (line : Int)
  | closing
  | assigns

/-- The token is one that the mark stands for. A keyword denotes its own value, any other literal
carries it. -/
def Mark.Fits : Mark → Token → Prop
  | token t, u => u = t
  | literal v line, u =>
    u.line = line ∧
      (u.kind = .falseWord ∧ v = .bool false ∨ u.kind = .trueWord ∧ v = .bool true ∨
        u.kind = .nilWord ∧ v = .nil ∨ (u.kind = .number ∨ u.kind = .text) ∧ v = u.literal)
  | opening line, u => u.kind = .leftParen ∧ u.line = line
  | closing, u => u.kind = .rightParen
  | assigns, u => u.kind = .equal

/-- What a tree is made of, from left to right: its tokens as far as it keeps them, and marks in the
place of the others. -/
def Expr.marks : Expr → List Mark
  | literal v line => [.literal v line]
  | read name _ => [.token name]
  | grouping e line => .opening line :: e.marks ++ [.closing]
  | unary op e _ => .token op :: e.marks
  | binary l op r _ | logical l op r _ => l.marks ++ .token op :: r.marks
  | assign name e _ => .token name :: .assigns :: e.marks
  | malformed _ _ => []

/-- The expression, read from left to right, is the list of tokens. -/
def Expr.Yields (e : Expr) (ts : List Token) : Prop := List.Forall₂ Mark.Fits e.marks ts

/-- Marks one after the other fit tokens one after the other. -/
theorem Mark.fits_append {ms ns : List Mark} {ts : List Token} :
    List.Forall₂ Fits (ms ++ ns) ts ↔
      ∃ us vs, ts = us ++ vs ∧ List.Forall₂ Fits ms us ∧ List.Forall₂ Fits ns vs := by
  constructor
  · intro h
    induction ms generalizing ts with
    | nil => exact ⟨[], ts, rfl, .nil, h⟩
    | cons m ms ih =>
      cases h with
      | cons hm h =>
        obtain ⟨us, vs, rfl, hus, hvs⟩ := ih h
        exact ⟨_ :: us, vs, rfl, .cons hm hus, hvs⟩
  · rintro ⟨us, vs, rfl, hus, hvs⟩
    exact List.rel_append hus hvs

/-- A mark of a literal stands for the tokens that are read as that literal. -/
theorem Mark.fits_literal_iff {t : Token} {v : Value} {line : Int} :
    (Mark.literal v line).Fits t ↔ Expr.ofToken? t = some (.literal v line) := by
  obtain ⟨kind, lexeme, literal, l⟩ := t
  cases kind <;> simp [Fits, Expr.ofToken?, and_comm, eq_comm]

/-! ## Derivations are trees that respect precedence, with their tokens -/

/-- An operation is on the level of its operator. -/
theorem Tier.level_join {tier : Tier} {op : Token} (ht : Tier.of? op.kind = some tier)
    (l r : Expr) : (tier.join l op r).level = tier.level := by
  unfold join
  split <;> simp [Expr.level, ht]

/-- An operation respects the levels if its left operand is not looser and its right one is tighter.
-/
theorem Tier.respects_join {tier : Tier} {op : Token} {l r : Expr}
    (ht : Tier.of? op.kind = some tier) (hl : l.Respects) (hr : r.Respects)
    (hlevel : tier.level ≤ l.level) (hlevel' : tier.level < r.level) :
    (tier.join l op r).Respects := by
  unfold join
  split
  · next hc => exact ⟨⟨tier, ht, hc, hlevel, hlevel'⟩, rfl, hl, hr⟩
  · next hc => exact ⟨⟨tier, ht, by simpa using hc, hlevel, hlevel'⟩, rfl, hl, hr⟩

/-- The operator stands between the marks of its operands. -/
theorem Tier.marks_join (tier : Tier) (l : Expr) (op : Token) (r : Expr) :
    (tier.join l op r).marks = l.marks ++ .token op :: r.marks := by
  unfold join
  split <;> rfl

/-- What is derived respects precedence, binds as tightly as asked for, and has the tokens it was
derived from. -/
theorem Phrase.respects {k : Nat} {ts : List Token} {e : Expr} (h : Phrase k ts e) :
    e.Respects ∧ k ≤ e.level ∧ e.Yields ts := by
  induction h with
  | tighter _ ih =>
    obtain ⟨hr, hk, hy⟩ := ih
    exact ⟨hr, by omega, hy⟩
  | assignment hn hs _ ih =>
    obtain ⟨hr, -, hy⟩ := ih
    exact ⟨⟨hn, rfl, hr⟩, Nat.zero_le _, .cons rfl (.cons hs hy)⟩
  | @operation tier op ls rs l r ht _ _ ihl ihr =>
    obtain ⟨hl, hkl, hyl⟩ := ihl
    obtain ⟨hr, hkr, hyr⟩ := ihr
    refine ⟨Tier.respects_join ht hl hr hkl hkr, Nat.le_of_eq (Tier.level_join ht l r).symm, ?_⟩
    unfold Expr.Yields
    rw [Tier.marks_join]
    exact List.rel_append hyl (.cons rfl hyr)
  | negation ho _ ih =>
    obtain ⟨hr, hk, hy⟩ := ih
    exact ⟨⟨ho, rfl, hk, hr⟩, Nat.le_refl _, .cons rfl hy⟩
  | @atom t e h =>
    cases e with
    | literal v line => exact ⟨True.intro, Nat.le_refl _, .cons (Mark.fits_literal_iff.mpr h) .nil⟩
    | read name line =>
      obtain ⟨rfl, hk, hl⟩ := Expr.ofToken?_eq_read h
      exact ⟨⟨hk, hl⟩, Nat.le_refl _, .cons rfl .nil⟩
    | _ =>
      unfold Expr.ofToken? at h
      split at h <;> cases h
  | parentheses hl _ hr ih =>
    obtain ⟨he, -, hy⟩ := ih
    exact ⟨he, Nat.le_refl _, .cons ⟨hl, rfl⟩ (List.rel_append hy (.cons hr .nil))⟩

/-- The tokens of an operator and its operands derive what the operator makes of them. -/
theorem Phrase.of_operands {connects : Bool} {op : Token} {l r : Expr} {ts : List Token}
    (h : Tier.Admits connects op l r) (hl : ∀ {us}, l.Yields us → Phrase l.level us l)
    (hr : ∀ {us}, r.Yields us → Phrase r.level us r)
    (hy : List.Forall₂ Mark.Fits (l.marks ++ .token op :: r.marks) ts) :
    ∃ tier, Tier.of? op.kind = some tier ∧ tier.connects = connects ∧
      Phrase tier.level ts (tier.join l op r) := by
  obtain ⟨tier, ht, hc, hlevel, hlevel'⟩ := h
  obtain ⟨us, vs, rfl, hus, hvs⟩ := Mark.fits_append.mp hy
  cases hvs with
  | cons hop hvs =>
    cases hop
    exact ⟨tier, ht, hc, .operation ht ((hl hus).loosen hlevel) ((hr hvs).loosen hlevel')⟩

/-- A tree that respects precedence is derived from its tokens. -/
theorem Expr.Respects.phrase {e : Expr} {ts : List Token} (h : e.Respects) (hy : e.Yields ts) :
    Phrase e.level ts e := by
  induction e generalizing ts with
  | literal v line =>
    cases hy with
    | cons hm hy =>
      cases hy
      exact .atom (Mark.fits_literal_iff.mp hm)
  | read name line =>
    obtain ⟨hk, rfl⟩ := h
    cases hy with
    | cons hm hy =>
      cases hm
      cases hy
      exact .atom (by simp [Expr.ofToken?, hk])
  | grouping e line ih =>
    cases hy with
    | cons hm hy =>
      obtain ⟨us, vs, rfl, hus, hvs⟩ := Mark.fits_append.mp hy
      obtain ⟨hl, rfl⟩ := hm
      cases hvs with
      | cons hm hvs =>
        cases hvs
        -- within parentheses, any level will do
        exact .parentheses hl ((ih h hus).loosen (Nat.zero_le _)) hm
  | unary op e line ih =>
    obtain ⟨ho, rfl, hlevel, he⟩ := h
    cases hy with
    | cons hm hy =>
      cases hm
      exact .negation ho ((ih he hy).loosen hlevel)
  | binary l op r line ihl ihr =>
    obtain ⟨hadmits, rfl, hl, hr⟩ := h
    obtain ⟨tier, ht, hc, hp⟩ := Phrase.of_operands hadmits (ihl hl) (ihr hr) hy
    -- connectives and other operators differ in the node that they make, not in their levels
    have hjoin : tier.join l op r = .binary l op r op.line := by simp [Tier.join, hc]
    rw [← hjoin, Tier.level_join ht]
    exact hp
  | logical l op r line ihl ihr =>
    obtain ⟨hadmits, rfl, hl, hr⟩ := h
    obtain ⟨tier, ht, hc, hp⟩ := Phrase.of_operands hadmits (ihl hl) (ihr hr) hy
    have hjoin : tier.join l op r = .logical l op r op.line := by simp [Tier.join, hc]
    rw [← hjoin, Tier.level_join ht]
    exact hp
  | assign name e line ih =>
    obtain ⟨hn, rfl, he⟩ := h
    cases hy with
    | cons hm hy =>
      cases hm
      cases hy with
      | cons hs hy => exact .assignment hn hs ((ih he hy).loosen (Nat.zero_le _))
  | malformed kind line => exact absurd h id

/-! ## Reading and writing -/

namespace Parse

/-- Reading an expression inverts writing it. What is read without an error respects precedence and
has exactly the tokens that were passed. Conversely, in front of a token that cannot extend an
expression, the tokens of a tree that respects precedence are read as that tree, and no more than
these are passed, if the tree is not nested too deeply. -/
theorem reading_inverts_writing (room : Nat) :
    (∀ s e s', expression room s = .ok e s' → s'.noted = s.noted →
      e.Respects ∧ ∃ ts, e.Yields ts ∧ s.cursor.rest = ts ++ s'.cursor.rest ∧
        s' = s.behind ts.length) ∧
    ∀ s e ts rest, e.Respects → e.Yields ts → s.cursor.rest = ts ++ rest → EndsPhrase rest →
      e.nesting < room → expression room s = .ok e (s.behind ts.length) := by
  constructor
  · intro s e s' h hn
    obtain ⟨ts, hts, hphrase⟩ := (derives_expression room).derives s e s' h hn
    obtain ⟨us, hus⟩ := ((composed_expression room).frames.of_ok h).passes hn
    obtain rfl : ts = us := List.append_cancel_right (hts.symm.trans hus.1)
    obtain ⟨hrespects, -, hyields⟩ := hphrase.respects
    exact ⟨hrespects, ts, hyields, hus⟩
  · intro s e ts rest hrespects hyields hrest hend hroom
    have hphrase := (hrespects.phrase hyields).loosen (Nat.zero_le _)
    have hbehind : (s.behind ts.length).cursor.rest = rest := behind_append hrest
    have hpasses : s.Passes ts (s.behind ts.length) := ⟨by rw [hrest, hbehind], rfl⟩
    rcases finds_expression hphrase room s _ hpasses (by rwa [hbehind]) with h | ⟨hdeep, -⟩
    · exact h
    · omega

/-- The tokens of `-a * nil;` are read up to the semicolon, and the minus sign binds more tightly
than the asterisk. -/
theorem reads_negated_product :
    expression 9 (.ofTokens
      [⟨.minus, "-", .nil, 1⟩, ⟨.identifier, "a", .nil, 1⟩, ⟨.star, "*", .nil, 1⟩,
       ⟨.nilWord, "nil", .nil, 1⟩, ⟨.semicolon, ";", .nil, 1⟩]) =
      .ok (.binary
          (.unary ⟨.minus, "-", .nil, 1⟩ (.read ⟨.identifier, "a", .nil, 1⟩ 1) 1)
          ⟨.star, "*", .nil, 1⟩ (.literal .nil 1) 1)
        ((ParseState.ofTokens
          [⟨.minus, "-", .nil, 1⟩, ⟨.identifier, "a", .nil, 1⟩, ⟨.star, "*", .nil, 1⟩,
           ⟨.nilWord, "nil", .nil, 1⟩, ⟨.semicolon, ";", .nil, 1⟩]).behind 4) :=
  (reading_inverts_writing 9).2 _ _
    [⟨.minus, "-", .nil, 1⟩, ⟨.identifier, "a", .nil, 1⟩, ⟨.star, "*", .nil, 1⟩,
     ⟨.nilWord, "nil", .nil, 1⟩]
    [⟨.semicolon, ";", .nil, 1⟩]
    ⟨⟨.factor, rfl, rfl, by decide, by decide⟩, rfl, ⟨.inr rfl, rfl, by decide, rfl, rfl⟩,
      True.intro⟩
    (.cons rfl (.cons rfl (.cons rfl (.cons ⟨rfl, by simp⟩ .nil)))) (by rfl)
    ⟨rfl, by simp⟩ (by decide)

end Parse

end LoxScript
