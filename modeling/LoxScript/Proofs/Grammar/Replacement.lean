import LoxScript.Proofs.Grammar.Boundary
import LoxScript.Proofs.Grammar.Derivation

/-!
# Replacing a part of a program

A part of a program that is an expression can be replaced by any literal, variable or expression in
parentheses: wherever an expression may stand, these may, and nothing around them is read in another
way. So for each expression in the tree of a program there is a place in its tokens where the expression
is written, and what is written there instead takes the place of the expression in the tree
(`Declarations.slot`).

There is one expression that is not written: the condition of a loop that has none. Its place is where
the condition could have been written.
-/

namespace LoxScript

/-! ## Replacing in a tree -/

/-- The second expression is the first one with `b` instead of `a` in one place. The name on the left
side of an assignment is no such place. -/
inductive Expr.Replaces (a b : Expr) : Expr → Expr → Prop where
  | here : Replaces a b a b
  | operand {op : Token} {e e' : Expr} {line : Int} (h : Replaces a b e e') :
      Replaces a b (.unary op e line) (.unary op e' line)
  | binaryLeft {op : Token} {e e' f : Expr} {line : Int} (h : Replaces a b e e') :
      Replaces a b (.binary e op f line) (.binary e' op f line)
  | binaryRight {op : Token} {e f f' : Expr} {line : Int} (h : Replaces a b f f') :
      Replaces a b (.binary e op f line) (.binary e op f' line)
  | logicalLeft {op : Token} {e e' f : Expr} {line : Int} (h : Replaces a b e e') :
      Replaces a b (.logical e op f line) (.logical e' op f line)
  | logicalRight {op : Token} {e f f' : Expr} {line : Int} (h : Replaces a b f f') :
      Replaces a b (.logical e op f line) (.logical e op f' line)
  | inner {e e' : Expr} {line : Int} (h : Replaces a b e e') :
      Replaces a b (.grouping e line) (.grouping e' line)
  | value {name : Token} {e e' : Expr} {line : Int} (h : Replaces a b e e') :
      Replaces a b (.assign name e line) (.assign name e' line)

namespace Stmt

mutual

/-- The second statement is the first one with the expression `b` instead of `a` in one place. An
expression statement goes to the line of its new expression. -/
inductive Replaces (a b : Expr) : Stmt → Stmt → Prop where
  | expression {e e' : Expr} {line : Int} (h : Expr.Replaces a b e e') :
      Replaces a b (.expression e line) (.expression e' e'.line)
  | print {e e' : Expr} {line : Int} (h : Expr.Replaces a b e e') :
      Replaces a b (.print e line) (.print e' line)
  | declare {name : Token} {e e' : Expr} {line : Int} (h : Expr.Replaces a b e e') :
      Replaces a b (.declare name (some e) line) (.declare name (some e') line)
  | block {ss ss' : List Stmt} {line : Int} (h : ReplacesIn a b ss ss') :
      Replaces a b (.block ss line) (.block ss' line)
  | ifThenCondition {c c' : Expr} {s : Stmt} {line : Int} (h : Expr.Replaces a b c c') :
      Replaces a b (.ifThen c s line) (.ifThen c' s line)
  | ifThenBody {c : Expr} {s s' : Stmt} {line : Int} (h : Replaces a b s s') :
      Replaces a b (.ifThen c s line) (.ifThen c s' line)
  | ifElseCondition {c c' : Expr} {s t : Stmt} {line : Int} (h : Expr.Replaces a b c c') :
      Replaces a b (.ifElse c s t line) (.ifElse c' s t line)
  | ifElseBody {c : Expr} {s s' t : Stmt} {line : Int} (h : Replaces a b s s') :
      Replaces a b (.ifElse c s t line) (.ifElse c s' t line)
  | ifElseOther {c : Expr} {s t t' : Stmt} {line : Int} (h : Replaces a b t t') :
      Replaces a b (.ifElse c s t line) (.ifElse c s t' line)
  | loopCondition {c c' : Expr} {s : Stmt} {line : Int} (h : Expr.Replaces a b c c') :
      Replaces a b (.loop c s line) (.loop c' s line)
  | loopBody {c : Expr} {s s' : Stmt} {line : Int} (h : Replaces a b s s') :
      Replaces a b (.loop c s line) (.loop c s' line)

/-- The second statements are the first ones with the expression `b` instead of `a` in one place. -/
inductive ReplacesIn (a b : Expr) : List Stmt → List Stmt → Prop where
  | head {s s' : Stmt} {ss : List Stmt} (h : Replaces a b s s') : ReplacesIn a b (s :: ss) (s' :: ss)
  | tail {s : Stmt} {ss ss' : List Stmt} (h : ReplacesIn a b ss ss') :
      ReplacesIn a b (s :: ss) (s :: ss')

end

end Stmt

/-! ## Slots in a list of tokens -/

/-- Between `before` and `after` stand the tokens `written`, which are the expression `a`; or no tokens
stand there, and `a` is the condition of a loop that has none. In their place any phrase for `a` may be
written that binds as tightly as can be, and `D` derives `x` from all the tokens; with a phrase for `b`
it derives `y`. -/
structure Slot {α : Type} (D : List Token → α → Prop) (a b : Expr) (x y : α)
    (before written after : List Token) : Prop where
  written : Phrase 0 written a ∨ written = [] ∧ ∃ line, a = .literal (.bool true) line
  same : ∀ ms, Phrase 8 ms a → D (before ++ ms ++ after) x
  other : ∀ ms, Phrase 8 ms b → D (before ++ ms ++ after) y

/-- There is a slot for `a` among the tokens, where `b` may be written instead. -/
def HasSlot {α : Type} (D : List Token → α → Prop) (a b : Expr) (ts : List Token) (x y : α) :
    Prop :=
  ∃ before written after, ts = before ++ written ++ after ∧ Slot D a b x y before written after

section

variable {α β : Type} {D : List Token → α → Prop} {E : List Token → β → Prop} {a b : Expr}
  {ts : List Token} {x y : α}

/-- A part of the tokens has the slot, and what is made of the part is not affected otherwise. -/
theorem HasSlot.within (h : HasSlot D a b ts x y) (us vs : List Token) (f : α → β)
    (hf : ∀ ts z, D ts z → E (us ++ ts ++ vs) (f z)) :
    HasSlot E a b (us ++ ts ++ vs) (f x) (f y) := by
  obtain ⟨before, written, after, rfl, hwritten, hsame, hother⟩ := h
  have hassoc : ∀ ms, us ++ (before ++ ms ++ after) ++ vs = us ++ before ++ ms ++ (after ++ vs) := by
    intro ms
    simp only [List.append_assoc]
  refine ⟨us ++ before, written, after ++ vs, hassoc written, hwritten, fun ms hms => ?_,
    fun ms hms => ?_⟩
  · rw [← hassoc]
    exact hf _ _ (hsame ms hms)
  · rw [← hassoc]
    exact hf _ _ (hother ms hms)

end

/-! ## Expressions -/

theorem Phrase.level_le {k : Nat} {ts : List Token} {e : Expr} (h : Phrase k ts e) : k ≤ 8 := by
  induction h with
  | tighter _ ih => omega
  | @operation tier =>
    have hlt := tier.level_lt
    omega
  | _ => omega

variable {a b : Expr}

/-- Where a whole expression is replaced, all of its tokens are. -/
theorem Phrase.here {k : Nat} {ts : List Token} (h : Phrase k ts a) :
    HasSlot (Phrase k) a b ts a b := by
  refine ⟨[], ts, [], by simp, .inl (h.loosen (Nat.zero_le k)), fun ms hms => ?_, fun ms hms => ?_⟩
  · simpa using hms.loosen h.level_le
  · simpa using hms.loosen h.level_le

/-- In an operation, either the whole is replaced, or something in one of its operands. -/
theorem Expr.replaces_join {tier : Tier} {op : Token} {l r e' : Expr}
    (h : Replaces a b (tier.join l op r) e') :
    (a = tier.join l op r ∧ e' = b) ∨ (∃ l', Replaces a b l l' ∧ e' = tier.join l' op r) ∨
      ∃ r', Replaces a b r r' ∧ e' = tier.join l op r' := by
  unfold Tier.join at h ⊢
  cases hc : tier.connects <;> simp only [hc, Bool.false_eq_true, if_true, if_false] at h ⊢
  · cases h with
    | here => exact .inl ⟨rfl, rfl⟩
    | binaryLeft h => exact .inr (.inl ⟨_, h, rfl⟩)
    | binaryRight h => exact .inr (.inr ⟨_, h, rfl⟩)
  · cases h with
    | here => exact .inl ⟨rfl, rfl⟩
    | logicalLeft h => exact .inr (.inl ⟨_, h, rfl⟩)
    | logicalRight h => exact .inr (.inr ⟨_, h, rfl⟩)

/-- There are no parts in what is made of a single token. -/
theorem Expr.replaces_ofToken? {t : Token} {e e' : Expr} (ht : Expr.ofToken? t = some e)
    (h : Replaces a b e e') : a = e ∧ e' = b := by
  unfold Expr.ofToken? at ht
  split at ht
  all_goals cases ht
  all_goals
    cases h
    exact ⟨rfl, rfl⟩

/-- Every expression within an expression has its slot. -/
theorem Phrase.slot {k : Nat} {ts : List Token} {e e' : Expr} (h : Phrase k ts e)
    (hr : Expr.Replaces a b e e') : HasSlot (Phrase k) a b ts e e' := by
  induction h generalizing e' with
  | @tighter k _ _ _ ih =>
    simpa using (ih hr).within (E := Phrase k) [] [] id fun ts z hz => by simpa using hz.tighter
  | assignment hn hs he ih =>
    cases hr with
    | here => exact (Phrase.assignment hn hs he).here
    | value hr =>
      simpa using (ih hr).within (E := Phrase 0) [_, _] [] (Expr.assign _ · _)
        fun ts z hz => by simpa using Phrase.assignment hn hs hz
  | @operation tier op ls rs l r ht hl hr' ihl ihr =>
    rcases Expr.replaces_join hr with ⟨rfl, rfl⟩ | ⟨l', h, rfl⟩ | ⟨r', h, rfl⟩
    · exact (Phrase.operation ht hl hr').here
    · simpa using (ihl h).within (E := Phrase tier.level) [] (op :: rs) (tier.join · op r)
        fun ts z hz => by simpa using hz.operation ht hr'
    · simpa using (ihr h).within (E := Phrase tier.level) (ls ++ [op]) [] (tier.join l op ·)
        fun ts z hz => by simpa using hl.operation ht hz
  | negation ho he ih =>
    cases hr with
    | here => exact (Phrase.negation ho he).here
    | operand hr =>
      simpa using (ih hr).within (E := Phrase 7) [_] [] (Expr.unary _ · _)
        fun ts z hz => by simpa using Phrase.negation ho hz
  | atom h =>
    obtain ⟨rfl, rfl⟩ := Expr.replaces_ofToken? h hr
    exact (Phrase.atom h).here
  | parentheses hl he hr' ih =>
    cases hr with
    | here => exact (Phrase.parentheses hl he hr').here
    | inner hr =>
      exact (ih hr).within (E := Phrase 8) [_] [_] (Expr.grouping · _)
        fun ts z hz => Phrase.parentheses hl hz hr'

/-! ## Clauses -/

variable {ts : List Token}

theorem OptionalPhrase.slot {e e' : Expr} (h : OptionalPhrase ts (some e))
    (hr : Expr.Replaces a b e e') : HasSlot OptionalPhrase a b ts (some e) (some e') := by
  cases h with
  | present h =>
    simpa using (h.slot hr).within (E := OptionalPhrase) [] [] some
      fun ts z hz => by simpa using OptionalPhrase.present hz

/-- The value of a variable leaves a slot in its declaration. -/
theorem VariableClause.slot {s s' : Stmt} (h : VariableClause ts s) (hr : Stmt.Replaces a b s s') :
    HasSlot VariableClause a b ts s s' := by
  cases h with
  | bare => cases hr
  | initialized hn hq he hs =>
    cases hr with
    | declare hr =>
      exact (he.slot hr).within [_, _] [_] (fun e => Stmt.declare _ (some e) _)
        fun ts z hz => VariableClause.initialized hn hq hz hs

theorem ExpressionClause.slot {s s' : Stmt} (h : ExpressionClause ts s)
    (hr : Stmt.Replaces a b s s') : HasSlot ExpressionClause a b ts s s' := by
  cases h with
  | intro he hs =>
    cases hr with
    | expression hr =>
      exact (he.slot hr).within [] [_] (fun e => Stmt.expression e e.line)
        fun ts z hz => ExpressionClause.intro hz hs

/-- The first clause of a loop is a declaration or an expression, and leaves the slot of that. -/
theorem FirstClause.slot {s s' : Stmt} (h : FirstClause ts (some s)) (hr : Stmt.Replaces a b s s') :
    HasSlot FirstClause a b ts (some s) (some s') := by
  cases h with
  | variableDeclaration hw h =>
    simpa using (h.slot hr).within (E := FirstClause) [_] [] some
      fun ts z hz => by simpa using FirstClause.variableDeclaration hw hz
  | expression h =>
    simpa using (h.slot hr).within (E := FirstClause) [] [] some
      fun ts z hz => by simpa using FirstClause.expression hz

/-! ## Loops -/

/-- The tokens form the condition of a "for" loop. Without tokens it is the word "true". -/
def ConditionClause (line : Int) (ts : List Token) (c : Expr) : Prop :=
  ∃ condition, OptionalPhrase ts condition ∧ c = condition.getD (.literal (.bool true) line)

/-- A condition that is not written has a slot nevertheless. -/
theorem ConditionClause.slot {line : Int} {c c' : Expr} (h : ConditionClause line ts c)
    (hr : Expr.Replaces a b c c') : HasSlot (ConditionClause line) a b ts c c' := by
  obtain ⟨condition, h, rfl⟩ := h
  cases h with
  | absent =>
    cases hr with
    | here =>
      refine ⟨[], [], [], rfl, .inr ⟨rfl, line, rfl⟩, fun ms hms => ?_, fun ms hms => ?_⟩
      · exact ⟨_, .present (by simpa using hms.loosen (Nat.zero_le 8)), rfl⟩
      · exact ⟨_, .present (by simpa using hms.loosen (Nat.zero_le 8)), rfl⟩
  | present h =>
    simpa using (h.slot hr).within (E := ConditionClause line) [] [] id
      fun ts z hz => ⟨some z, by simpa using OptionalPhrase.present hz, rfl⟩

namespace Stmt

/-- In a block of two statements, something is replaced in one of them. -/
theorem replaces_block_pair {s t x : Stmt} {line : Int} (h : Replaces a b (.block [s, t] line) x) :
    (∃ s', Replaces a b s s' ∧ x = .block [s', t] line) ∨
      ∃ t', Replaces a b t t' ∧ x = .block [s, t'] line := by
  cases h with
  | block h =>
    cases h with
    | head h => exact .inl ⟨_, h, rfl⟩
    | tail h =>
      cases h with
      | head h => exact .inr ⟨_, h, rfl⟩
      | tail h => cases h

/-- With a first clause, the loop without one stands in a block behind it. -/
theorem unrolled_first (line : Int) (s : Stmt) (condition step : Option Expr) (body : Stmt) :
    unrolled line (some s) condition step body =
      .block [s, unrolled line none condition step body] line := by
  cases step <;> rfl

/-- A condition that is not written makes the same loop as the word "true". -/
@[simp]
theorem unrolled_getD (line : Int) (first : Option Stmt) (condition step : Option Expr) (body : Stmt) :
    unrolled line first (some (condition.getD (.literal (.bool true) line))) step body =
      unrolled line first condition step body :=
  rfl

/-- In a loop that was unrolled, something is replaced in one of its clauses or in its body. -/
theorem replaces_loop {line : Int} {condition step : Option Expr} {body x : Stmt}
    (h : Replaces a b (unrolled line none condition step body) x) :
    (∃ c, Expr.Replaces a b (condition.getD (.literal (.bool true) line)) c ∧
        x = unrolled line none (some c) step body) ∨
      (∃ e e', step = some e ∧ Expr.Replaces a b e e' ∧
        x = unrolled line none condition (some e') body) ∨
      ∃ s, Replaces a b body s ∧ x = unrolled line none condition step s := by
  cases step with
  | none =>
    cases h with
    | loopCondition h => exact .inl ⟨_, h, rfl⟩
    | loopBody h => exact .inr (.inr ⟨_, h, rfl⟩)
  | some e =>
    cases h with
    | loopCondition h => exact .inl ⟨_, h, rfl⟩
    | loopBody h =>
      obtain ⟨s, hs, rfl⟩ | ⟨t, ht, rfl⟩ := replaces_block_pair h
      · exact .inr (.inr ⟨_, hs, rfl⟩)
      · cases ht with
        | expression he => exact .inr (.inl ⟨_, _, rfl, he, rfl⟩)

/-- A part of a "for" loop is a part of one of its clauses or of its body. -/
theorem replaces_unrolled {line : Int} {first : Option Stmt} {condition step : Option Expr}
    {body x : Stmt} (h : Replaces a b (unrolled line first condition step body) x) :
    (∃ s s', first = some s ∧ Replaces a b s s' ∧
        x = unrolled line (some s') condition step body) ∨
      (∃ c, Expr.Replaces a b (condition.getD (.literal (.bool true) line)) c ∧
        x = unrolled line first (some c) step body) ∨
      (∃ e e', step = some e ∧ Expr.Replaces a b e e' ∧
        x = unrolled line first condition (some e') body) ∨
      ∃ s, Replaces a b body s ∧ x = unrolled line first condition step s := by
  cases first with
  | none => exact .inr (replaces_loop h)
  | some s =>
    rw [unrolled_first] at h
    obtain ⟨s', hs, rfl⟩ | ⟨t, ht, rfl⟩ := replaces_block_pair h
    · exact .inl ⟨_, _, rfl, hs, (unrolled_first _ _ _ _ _).symm⟩
    · simp only [unrolled_first]
      rcases replaces_loop ht with ⟨c, hc, rfl⟩ | ⟨e, e', rfl, he, rfl⟩ | ⟨s', hs, rfl⟩
      · exact .inr (.inl ⟨_, hc, rfl⟩)
      · exact .inr (.inr (.inl ⟨_, _, rfl, he, rfl⟩))
      · exact .inr (.inr (.inr ⟨_, hs, rfl⟩))

end Stmt

/-! ## Statements -/

section

/-- In statements of fewer than `n` tokens every expression has its slot. -/
def SlotsBelow (n : Nat) (a b : Expr) : Prop :=
  ∀ {d : Bool} {ts : List Token} {s s' : Stmt}, ts.length < n → Sentence d ts s →
    Stmt.Replaces a b s s' → HasSlot (Sentence d) a b ts s s'

variable {n : Nat} {ts : List Token}

/-- A shorter declaration leaves a slot, whatever is replaced in it. -/
theorem Declaration.slot_of {s s' : Stmt} (hp : SlotsBelow n a b) (h : Declaration ts s)
    (hlen : ts.length < n) (hr : Stmt.Replaces a b s s') : HasSlot Declaration a b ts s s' := by
  cases h with
  | variableDeclaration hw h =>
    simpa using (h.slot hr).within (E := Declaration) [_] [] id
      fun us z hz => by simpa using Declaration.variableDeclaration hw hz
  | statement h =>
    simpa using (hp hlen h hr).within (E := Declaration) [] [] id
      fun us z hz => by simpa using Declaration.statement hz

theorem Declarations.slot_of {ss ss' : List Stmt} (hp : SlotsBelow n a b)
    (h : Declarations ts ss) (hlen : ts.length < n) (hr : Stmt.ReplacesIn a b ss ss') :
    HasSlot Declarations a b ts ss ss' := by
  induction ss generalizing ts ss' with
  | nil => cases hr
  | cons s ss ih =>
    cases h with
    | @cons ts us _ _ h hs =>
      rw [List.length_append] at hlen
      cases hr with
      | head hr =>
        exact (h.slot_of hp (by omega) hr).within [] us (· :: ss) fun vs z hz => .cons hz hs
      | tail hr =>
        simpa using (ih hs (by omega) hr).within (E := Declarations) ts [] (s :: ·)
          fun vs z hz => by simpa using Declarations.cons h hz

/-- A loop with clauses leaves a slot in the clause or the body in which something is replaced. -/
theorem Sentence.slot_forLoop {word left semicolon right : Token} {is cs ns : List Token}
    {first : Option Stmt} {condition step : Option Expr} {s x : Stmt} {d : Bool}
    (hw : word.kind = .forWord) (hl : left.kind = .leftParen) (hi : FirstClause is first)
    (hc : OptionalPhrase cs condition) (hm : semicolon.kind = .semicolon)
    (hn : OptionalPhrase ns step) (hr : right.kind = .rightParen) (hs : Sentence d ts s)
    (hp : ∀ {s'}, Stmt.Replaces a b s s' → HasSlot (Sentence d) a b ts s s')
    (h : Stmt.Replaces a b (.unrolled word.line first condition step s) x) :
    HasSlot (Sentence d) a b (word :: left :: is ++ (cs ++ semicolon :: (ns ++ right :: ts)))
      (.unrolled word.line first condition step s) x := by
  rcases Stmt.replaces_unrolled h with
    ⟨s₁, s₂, rfl, h₁, rfl⟩ | ⟨c, h₁, rfl⟩ | ⟨e, e', rfl, h₁, rfl⟩ | ⟨s', h₁, rfl⟩
  · simpa using (hi.slot h₁).within (E := Sentence d) [word, left]
      (cs ++ semicolon :: (ns ++ right :: ts)) (Stmt.unrolled word.line · condition step s)
      fun us z hz => by simpa using Sentence.forLoop hw hl hz hc hm hn hr hs
  · have hslot : HasSlot (ConditionClause word.line) a b cs _ c :=
      ConditionClause.slot ⟨condition, hc, rfl⟩ h₁
    simpa using hslot.within (E := Sentence d) (word :: left :: is)
      (semicolon :: (ns ++ right :: ts)) (fun c => Stmt.unrolled word.line first (some c) step s)
      fun us z ⟨o, ho, hz⟩ => by
        subst hz
        simpa using Sentence.forLoop hw hl hi ho hm hn hr hs
  · simpa using (hn.slot h₁).within (E := Sentence d)
      (word :: left :: is ++ (cs ++ [semicolon])) (right :: ts)
      (Stmt.unrolled word.line first condition · s)
      fun us z hz => by simpa using Sentence.forLoop hw hl hi hc hm hz hr hs
  · simpa using (hp h₁).within (E := Sentence d)
      (word :: left :: is ++ (cs ++ semicolon :: (ns ++ [right]))) []
      (Stmt.unrolled word.line first condition step ·)
      fun us z hz => by simpa using Sentence.forLoop hw hl hi hc hm hn hr hz

/-- The slots of a statement are those of its clauses and of the statements within it, which have
fewer tokens. -/
theorem Sentence.slot_of {d : Bool} {s s' : Stmt} (hp : SlotsBelow ts.length a b)
    (h : Sentence d ts s) (hr : Stmt.Replaces a b s s') : HasSlot (Sentence d) a b ts s s' := by
  -- in each form, one case for each part in which something is replaced
  cases h with
  | expression h =>
    simpa using (h.slot hr).within (E := Sentence false) [] [] id
      fun us z hz => by simpa using Sentence.expression hz
  | print hw he hs =>
    cases hr with
    | print hr => exact (he.slot hr).within [_] [_] (Stmt.print · _) fun us z hz => .print hw hz hs
  | @block left right ts ss hl h hr' =>
    cases hr with
    | block hr =>
      have hlt : ts.length < (left :: ts ++ [right]).length := by
        rw [List.length_append, List.length_cons, List.length_singleton]
        omega
      exact (h.slot_of hp hlt hr).within [left] [right] (Stmt.block · _)
        fun us z hz => .block hl hz hr'
  | @ifThen word left right cs ts c s d hw hl hc hr' hs =>
    cases hr with
    | ifThenCondition hr =>
      exact (hc.slot hr).within [word, left] (right :: ts) (Stmt.ifThen · s _)
        fun us z hz => .ifThen hw hl hz hr' hs
    | ifThenBody hr =>
      simpa using (hp (by simp; omega) hs hr).within (E := Sentence true)
        (word :: left :: cs ++ [right]) [] (Stmt.ifThen c · _)
        fun us z hz => by simpa using Sentence.ifThen hw hl hc hr' hz
  | @ifElse word left right other cs ts us c s t d hw hl hc hr' hs ho ht =>
    cases hr with
    | ifElseCondition hr =>
      exact (hc.slot hr).within [word, left] (right :: (ts ++ other :: us)) (Stmt.ifElse · s t _)
        fun us z hz => .ifElse hw hl hz hr' hs ho ht
    | ifElseBody hr =>
      simpa using (hp (by simp; omega) hs hr).within (E := Sentence d)
        (word :: left :: cs ++ [right]) (other :: us) (Stmt.ifElse c · t _)
        fun us z hz => by simpa using Sentence.ifElse hw hl hc hr' hz ho ht
    | ifElseOther hr =>
      simpa using (hp (by simp; omega) ht hr).within (E := Sentence d)
        (word :: left :: cs ++ right :: (ts ++ [other])) [] (Stmt.ifElse c s · _)
        fun us z hz => by simpa using Sentence.ifElse hw hl hc hr' hs ho hz
  | @whileLoop word left right cs ts c s d hw hl hc hr' hs =>
    cases hr with
    | loopCondition hr =>
      exact (hc.slot hr).within [word, left] (right :: ts) (Stmt.loop · s _)
        fun us z hz => .whileLoop hw hl hz hr' hs
    | loopBody hr =>
      simpa using (hp (by simp; omega) hs hr).within (E := Sentence d)
        (word :: left :: cs ++ [right]) [] (Stmt.loop c · _)
        fun us z hz => by simpa using Sentence.whileLoop hw hl hc hr' hz
  | forLoop hw hl hi hc hm hn hr' hs =>
    exact Sentence.slot_forLoop hw hl hi hc hm hn hr' hs (hp (by simp; omega) hs) hr

/-- Every expression within a statement has its slot. -/
theorem Sentence.slot {d : Bool} {s s' : Stmt} (h : Sentence d ts s)
    (hr : Stmt.Replaces a b s s') : HasSlot (Sentence d) a b ts s s' := by
  -- by the tokens and not by the tree, where a "for" loop is hidden in a block and a "while" loop
  induction hn : ts.length using Nat.strong_induction_on generalizing d ts s s' with
  | _ n ih =>
    subst hn
    exact h.slot_of (fun hlt hs hr => ih _ hlt hs hr rfl) hr

/-- Every expression within a program has its slot. -/
theorem Declarations.slot {ss ss' : List Stmt} (h : Declarations ts ss)
    (hr : Stmt.ReplacesIn a b ss ss') : HasSlot Declarations a b ts ss ss' :=
  h.slot_of (fun _ hs hr => hs.slot hr) (Nat.lt_succ_self _) hr

end

end LoxScript
