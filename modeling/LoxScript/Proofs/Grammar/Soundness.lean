import Mathlib.Data.Nat.Init
import LoxScript.Proofs.Grammar.Composition
import LoxScript.Proofs.Grammar.Derivation

/-!
# What is read is derived

Where the grammar functions have a result and note no error, the tokens that they passed derive the
result. For the fold over operators the invariant is that the operand on the left has been derived
at the level of the next operator: a fold stops only in front of an operator that binds less tightly
than it asks for.
-/

namespace LoxScript

open ParseState

namespace Parse

variable {α β : Type}

/-- The step is composed, and where it has a result without noting an error, `D` relates the tokens
that it passed, the result, and the tokens still to come. -/
structure Derives (p : Parse α) (D : List Token → α → List Token → Prop) : Prop where
  composed : Composed p
  derives : ∀ s a s', p s = .ok a s' → s'.noted = s.noted →
    ∃ ts, s.cursor.rest = ts ++ s'.cursor.rest ∧ D ts a s'.cursor.rest

namespace Derives

variable {p : Parse α} {f : α → Parse β} {D D' : List Token → α → List Token → Prop}

theorem mono (h : Derives p D) (hD : ∀ ts a rest, D ts a rest → D' ts a rest) : Derives p D' where
  composed := h.composed
  derives s a s' hs hn := by
    obtain ⟨ts, hts, hd⟩ := h.derives s a s' hs hn
    exact ⟨ts, hts, hD _ _ _ hd⟩

/-- In a sequence, the tokens fall into those of the first step and those of the second one. -/
theorem bind {E : List Token → β → List Token → Prop} (hp : Derives p D)
    (hf : ∀ a, Derives (f a) fun vs b rest => ∀ us, D us a (vs ++ rest) → E (us ++ vs) b rest) :
    Derives (p >>= f) E where
  composed := .bind hp.composed fun a => (hf a).composed
  derives s b s₂ h hn := by
    obtain ⟨a, s₁, h₁, h₂⟩ := bind_eq_ok.mp h
    have hclean : s₁.noted = s.noted :=
      (hp.composed.frames.of_ok h₁).noted_eq ((hf a).composed.frames.of_ok h₂) hn
    obtain ⟨us, hus, hD⟩ := hp.derives s a s₁ h₁ hclean
    obtain ⟨vs, hvs, hE⟩ := (hf a).derives s₁ b s₂ h₂ (hn.trans hclean.symm)
    refine ⟨us ++ vs, ?_, hE us ?_⟩
    · rw [hus, hvs, List.append_assoc]
    · rwa [hvs] at hD

theorem result {a : α} (h : ∀ rest, D [] a rest) : Derives (pure a) D where
  composed := .pure a
  derives s b s' h' _ := by
    cases h'
    exact ⟨[], rfl, h _⟩

/-- Where a step breaks off, nothing is to be shown. -/
theorem fail (cause : SyntaxCause) : Derives (fail cause) D where
  composed := .fail cause
  derives s b s' h _ := by cases h

theorem look : Derives look fun ts o rest => ts = [] ∧ rest.head? = o where
  composed := .look
  derives s o s' h _ := by
    cases h
    exact ⟨[], rfl, rfl, rfl⟩

theorem skip : Derives skip fun ts _ rest => ∀ t, (ts ++ rest).head? = some t → ts = [t] where
  composed := .skip
  derives s o s' h _ := by
    cases h
    cases hr : s.cursor.rest with
    | nil => exact ⟨[], by simp [hr], by simp [hr]⟩
    | cons t ts => exact ⟨[t], by simp [hr], by simp⟩

theorem expect (kind : TokenKind) (cause : SyntaxCause) :
    Derives (expect kind cause) fun ts t _ => ts = [t] ∧ t.kind = kind where
  composed := .expect kind cause
  derives s t s' h _ := by
    unfold Parse.expect at h
    split at h
    · cases h
    · next t' ts hr =>
      split at h
      · next hk =>
        cases h
        exact ⟨[t], by simp [hr], rfl, hk⟩
      · cases h

theorem accept (kinds : List TokenKind) :
    Derives (accept kinds) fun ts o rest =>
      match o with
      | some t => ts = [t] ∧ t.kind ∈ kinds
      | none => ts = [] ∧ ∀ t, rest.head? = some t → t.kind ∉ kinds where
  composed := .accept kinds
  derives s o s' h _ := by
    unfold Parse.accept at h
    split at h
    · next hr =>
      cases h
      exact ⟨[], rfl, rfl, by simp [hr]⟩
    · next t ts hr =>
      split at h
      · next hk =>
        cases h
        exact ⟨[t], by simp [hr], rfl, by simpa using hk⟩
      · next hk =>
        cases h
        refine ⟨[], rfl, rfl, ?_⟩
        intro t' ht'
        rw [hr, List.head?_cons, Option.some.injEq] at ht'
        subst ht'
        simpa using hk

end Derives

/-! ## Expressions -/

/-- What is read as a primary expression is one. -/
theorem derives_primaryOf {inner : Parse Expr} (hi : Derives inner fun ts e _ => Phrase 0 ts e) :
    Derives (primaryOf inner) fun ts e _ => Phrase 8 ts e := by
  rw [primaryOf_eq]
  refine Derives.look.bind fun o => ?_
  cases o with
  | none => exact .fail _
  | some t =>
    dsimp only
    split
    · next e he =>
      refine Derives.skip.bind fun _ => .result fun rest ts hts us hus => ?_
      obtain ⟨rfl, hhead⟩ := hus
      rw [hts t (by simpa using hhead)]
      exact .atom he
    · split
      · next hk =>
        refine Derives.skip.bind fun _ => hi.bind fun e => (Derives.expect _ _).bind fun right =>
          .result fun rest rs hrs es hes ts hts us hus => ?_
        obtain ⟨rfl, hr⟩ := hrs
        obtain ⟨rfl, hhead⟩ := hus
        rw [hts t (by simpa using hhead)]
        simpa using Phrase.parentheses hk hes hr
      · exact .fail _

/-- Prefix operators stand in front of an operand. -/
theorem derives_unaryOf {nested primary : Parse Expr}
    (hn : Derives nested fun ts e _ => Phrase 7 ts e)
    (hp : Derives primary fun ts e _ => Phrase 8 ts e) :
    Derives (unaryOf nested primary) fun ts e _ => Phrase 7 ts e := by
  refine (Derives.accept _).bind fun o => ?_
  cases o with
  | none =>
    refine hp.mono fun ts e rest he us hus => ?_
    obtain ⟨rfl, -⟩ := hus
    exact .tighter he
  | some op =>
    refine hn.bind fun e => .result fun rest ts hts us hus => ?_
    obtain ⟨rfl, hk⟩ := hus
    simpa using Phrase.negation (by simpa using hk) hts

/-- The fold onto an operand that was derived at the level of the operator to come, or at a tighter
one: what has been passed extends the derivation, and the fold stops only in front of an operator
that binds less tightly than `least`. -/
theorem derives_climbAll {operand : Parse Expr} (ho : Derives operand fun ts e _ => Phrase 7 ts e)
    {s s' : ParseState} {least j : Nat} {left e : Expr} {ls : List Token} (hj : least ≤ j)
    (hleft : Phrase j ls left)
    (hnext : ∀ tier, tierOf? s.cursor.rest = some tier → tier.level ≤ j)
    (h : climbAll operand least left s = .ok e s') (hn : s'.noted = s.noted) :
    ∃ ts, s.cursor.rest = ts ++ s'.cursor.rest ∧ Phrase least (ls ++ ts) e ∧
      ∀ tier, tierOf? s'.cursor.rest = some tier → tier.level < least := by
  generalize hlen : s.cursor.rest.length = n
  induction n using Nat.strong_induction_on generalizing s s' least j left e ls with
  | _ n ih =>
    by_cases hstop : ∀ tier, tierOf? s.cursor.rest = some tier → tier.level < least
    · rw [climbAll_of_stop hstop] at h
      cases h
      exact ⟨[], rfl, by simpa using hleft.loosen hj, hstop⟩
    · obtain ⟨tier, hstop⟩ := Classical.not_forall.mp hstop
      obtain ⟨htier, hlevel⟩ := Classical.not_imp.mp hstop
      obtain ⟨t, ts, hr, ht⟩ := exists_of_tierOf? htier
      have hlevel : least ≤ tier.level := Nat.not_lt.mp hlevel
      -- the right operand is itself a fold, of everything that binds more tightly
      rw [climbAll_of_fold ho.composed hr ht hlevel] at h
      obtain ⟨right, s₂, h₂, h⟩ := bind_eq_ok.mp h
      rw [tiers_eq] at h₂
      obtain ⟨first, s₁, h₁, h₂⟩ := bind_eq_ok.mp h₂
      have hread₁ := ho.composed.frames.of_ok h₁
      have hread₂ := (composed_climbAll ho.composed _ _).frames.of_ok h₂
      have hread₃ := (composed_climbAll ho.composed _ _).frames.of_ok h
      have hn₂ : s₂.noted = s.noted := (trans_of Reads hread₁ hread₂).noted_eq hread₃ hn
      have hn₁ : s₁.noted = s.noted := hread₁.noted_eq hread₂ hn₂
      have hlen₁ := hread₁.length_le
      have hlen₂ := hread₂.length_le
      rw [rest_advance, hr, List.tail_cons] at hlen₁
      rw [hr, List.length_cons] at hlen
      obtain ⟨fs, hfs, hfirst⟩ := ho.derives _ _ _ h₁ hn₁
      obtain ⟨rs, hrs, hright, hnext₂⟩ := ih _ (by omega) (Nat.succ_le_of_lt tier.level_lt) hfirst
        (fun tier' _ => Nat.le_of_lt tier'.level_lt) h₂ (hn₂.trans hn₁.symm) rfl
      -- what was folded is the left operand of the operators that are left
      have hfold : Phrase tier.level (ls ++ t :: (fs ++ rs)) (tier.join left t right) :=
        .operation ht (hleft.loosen (hnext tier htier)) hright
      obtain ⟨us, hus, he, hend⟩ := ih _ (by omega) hlevel hfold
        (fun tier' h' => Nat.lt_succ_iff.mp (hnext₂ tier' h')) h (hn.trans hn₂.symm) rfl
      refine ⟨t :: (fs ++ rs ++ us), ?_, by simpa using he, hend⟩
      rw [rest_advance, hr, List.tail_cons] at hfs
      rw [hr, hfs, hrs, hus]
      simp

/-- Operators of a level join operands of tighter levels. -/
theorem derives_tiers {operand : Parse Expr} (ho : Derives operand fun ts e _ => Phrase 7 ts e)
    {least : Nat} (hl : least ≤ 7) :
    Derives (tiers operand least) fun ts e _ => Phrase least ts e where
  composed := composed_tiers ho.composed least
  derives s e s' h hn := by
    rw [tiers_eq] at h
    obtain ⟨first, s₁, h₁, h₂⟩ := bind_eq_ok.mp h
    have hread₁ := ho.composed.frames.of_ok h₁
    have hread₂ := (composed_climbAll ho.composed _ _).frames.of_ok h₂
    have hn₁ : s₁.noted = s.noted := hread₁.noted_eq hread₂ hn
    obtain ⟨fs, hfs, hfirst⟩ := ho.derives _ _ _ h₁ hn₁
    obtain ⟨ts, hts, he, -⟩ := derives_climbAll ho hl hfirst
      (fun tier _ => Nat.le_of_lt tier.level_lt) h₂ (hn.trans hn₁.symm)
    exact ⟨fs ++ ts, by rw [hfs, hts, List.append_assoc], he⟩

/-- An assignment has a name in front of its sign, or an error was noted. -/
theorem derives_assignmentOf {target value : Parse Expr}
    (ht : Derives target fun ts e _ => Phrase 1 ts e)
    (hv : Derives value fun ts e _ => Phrase 0 ts e) :
    Derives (assignmentOf target value) fun ts e _ => Phrase 0 ts e where
  composed := .assignment ht.composed hv.composed
  derives s e s' h hn := by
    obtain ⟨left, s₁, h₁, h⟩ := bind_eq_ok.mp h
    obtain ⟨o, s₂, h₂, h⟩ := bind_eq_ok.mp h
    have hread₁ := ht.composed.frames.of_ok h₁
    have hread₂ := (frames_accept _).of_ok h₂
    cases o with
    | none =>
      cases h
      have hn₁ : s₁.noted = s.noted := hread₁.noted_eq hread₂ hn
      obtain ⟨ts, hts, hleft⟩ := ht.derives _ _ _ h₁ hn₁
      obtain ⟨us, hus, rfl, -⟩ := (Derives.accept _).derives _ _ _ h₂ (hn.trans hn₁.symm)
      exact ⟨ts, by rw [hts, hus, List.nil_append], hleft.tighter⟩
    | some sign =>
      obtain ⟨v, s₃, h₃, h⟩ := bind_eq_ok.mp h
      have hread₃ := hv.composed.frames.of_ok h₃
      have hread₁₂ := trans_of Reads hread₁ hread₂
      cases left with
      | read name line =>
        cases h
        have hn₂ : s₂.noted = s.noted := hread₁₂.noted_eq hread₃ hn
        have hn₁ : s₁.noted = s.noted := hread₁.noted_eq hread₂ hn₂
        obtain ⟨ts, hts, hleft⟩ := ht.derives _ _ _ h₁ hn₁
        obtain ⟨us, hus, rfl, hsign⟩ := (Derives.accept _).derives _ _ _ h₂ (hn₂.trans hn₁.symm)
        obtain ⟨vs, hvs, hvalue⟩ := hv.derives _ _ _ h₃ (hn.trans hn₂.symm)
        obtain ⟨rfl, hname⟩ := hleft.eq_of_read
        refine ⟨name :: sign :: vs, by simp [hts, hus, hvs], ?_⟩
        exact .assignment hname (by simpa using hsign) hvalue
      | _ =>
        -- what is noted is an error, so this case is excluded
        cases h
        have hlen := (trans_of Reads hread₁₂ hread₃).noted.length_le
        have hnote := congrArg List.length hn
        simp only [ParseState.note, List.length_append, List.length_singleton] at hnote
        omega

mutual

theorem derives_unary (room : Nat) : Derives (unary room) fun ts e _ => Phrase 7 ts e := by
  cases room with
  | zero => exact .fail _
  | succ room =>
    exact derives_unaryOf (derives_unary room) (derives_primaryOf (derives_expression room))

/-- An expression that is read without an error is derived from the tokens that were passed. -/
theorem derives_expression (room : Nat) :
    Derives (expression room) fun ts e _ => Phrase 0 ts e := by
  cases room with
  | zero => exact .fail _
  | succ room =>
    exact derives_assignmentOf (derives_tiers (derives_unary room) (by decide))
      (derives_expression room)

end

/-! ## Statements -/

section

variable {value : Parse Expr} {nested : Parse Stmt}

theorem derives_expressionStatement (hv : Derives value fun ts e _ => Phrase 0 ts e) :
    Derives (expressionStatement value) fun ts s _ => ExpressionClause ts s := by
  refine hv.bind fun e => (Derives.expect _ _).bind fun semicolon =>
    .result fun rest us hus ts he => ?_
  obtain ⟨rfl, hk⟩ := hus
  simpa using ExpressionClause.intro he hk

/-- What is read as a variable declaration is one. -/
theorem derives_variableDeclaration (hv : Derives value fun ts e _ => Phrase 0 ts e) :
    Derives (variableDeclaration value) fun ts s _ => VariableClause ts s := by
  refine (Derives.expect _ _).bind fun name => (Derives.accept _).bind fun o => ?_
  cases o with
  | none =>
    refine (Derives.result (D := fun ts o _ => ts = [] ∧ o = none) (by simp)).bind fun first =>
      (Derives.expect _ _).bind fun semicolon =>
        .result fun rest ss hss fs hfs us hus ns hns => ?_
    obtain ⟨rfl, hsemicolon⟩ := hss
    obtain ⟨rfl, rfl⟩ := hfs
    obtain ⟨rfl, -⟩ := hus
    obtain ⟨rfl, hname⟩ := hns
    exact .bare hname hsemicolon
  | some sign =>
    refine hv.bind fun e => (Derives.result (D := fun ts o _ => ts = [] ∧ o = some e) (by simp)).bind
      fun first => (Derives.expect _ _).bind fun semicolon =>
        .result fun rest ss hss fs hfs es he us hus ns hns => ?_
    obtain ⟨rfl, hsemicolon⟩ := hss
    obtain ⟨rfl, rfl⟩ := hfs
    obtain ⟨rfl, hsign⟩ := hus
    obtain ⟨rfl, hname⟩ := hns
    simpa using VariableClause.initialized hname (by simpa using hsign) he hsemicolon

theorem derives_declarationOf (hv : Derives value fun ts e _ => Phrase 0 ts e)
    (hn : Derives nested fun ts s rest => ∃ d, Sentence d ts s ∧ Complete d rest) :
    Derives (declarationOf value nested) fun ts s _ => Declaration ts s := by
  refine (Derives.accept _).bind fun o => ?_
  cases o with
  | none =>
    refine hn.mono fun ts s rest hs us hus => ?_
    obtain ⟨d, hs, -⟩ := hs
    obtain ⟨rfl, -⟩ := hus
    exact .statement hs
  | some word =>
    refine (derives_variableDeclaration hv).mono fun ts s rest hs us hus => ?_
    obtain ⟨rfl, hk⟩ := hus
    exact .variableDeclaration (by simpa using hk) hs

theorem derives_declarations {declaration : Parse Stmt}
    (hd : Derives declaration fun ts s _ => Declaration ts s) (fuel : Nat) :
    Derives (declarations declaration fuel) fun ts ss _ => Declarations ts ss := by
  induction fuel with
  | zero => exact .result fun _ => .nil
  | succ fuel ih =>
    refine Derives.look.bind fun o => ?_
    cases o with
    | none =>
      refine .result fun rest us hus => ?_
      obtain ⟨rfl, -⟩ := hus
      exact .nil
    | some t =>
      dsimp only
      split
      · refine .result fun rest us hus => ?_
        obtain ⟨rfl, -⟩ := hus
        exact .nil
      · refine hd.bind fun d => ih.bind fun later => .result fun rest ls hls ts hts us hus => ?_
        obtain ⟨rfl, -⟩ := hus
        simpa using Declarations.cons hts hls

/-- What is read as a block is declarations in front of a closing brace. -/
theorem derives_blockOf {declaration : Parse Stmt}
    (hd : Derives declaration fun ts s _ => Declaration ts s) (hc : Consumes declaration) :
    Derives (blockOf declaration) fun ts ss _ =>
      ∃ us right, ts = us ++ [right] ∧ Declarations us ss ∧ right.kind = .rightBrace := by
  have hall : Derives (declarationsAll declaration) fun ts ss _ => Declarations ts ss :=
    ⟨composed_declarationsAll hd.composed hc, fun s => (derives_declarations hd _).derives s⟩
  rw [blockOf_eq]
  refine hall.bind fun body => (Derives.expect _ _).bind fun right =>
    .result fun rest rs hrs us hus => ?_
  obtain ⟨rfl, hk⟩ := hrs
  exact ⟨us, right, by simp, hus, hk⟩

theorem derives_firstClause (hv : Derives value fun ts e _ => Phrase 0 ts e) :
    Derives (firstClause value) fun ts o _ => FirstClause ts o := by
  refine (Derives.accept _).bind fun o => ?_
  cases o with
  | some semicolon =>
    refine .result fun rest us hus => ?_
    obtain ⟨rfl, hk⟩ := hus
    exact .absent (by simpa using hk)
  | none =>
    refine (Derives.accept _).bind fun o => ?_
    cases o with
    | some word =>
      refine (derives_variableDeclaration hv).bind fun s =>
        .result fun rest ts hts ws hws us hus => ?_
      obtain ⟨rfl, hk⟩ := hws
      obtain ⟨rfl, -⟩ := hus
      simpa using FirstClause.variableDeclaration (by simpa using hk) hts
    | none =>
      refine (derives_expressionStatement hv).bind fun s =>
        .result fun rest ts hts ws hws us hus => ?_
      obtain ⟨rfl, -⟩ := hws
      obtain ⟨rfl, -⟩ := hus
      simpa using FirstClause.expression hts

theorem derives_optional (hv : Derives value fun ts e _ => Phrase 0 ts e) (kind : TokenKind) :
    Derives (optional value kind) fun ts o _ => OptionalPhrase ts o := by
  have hpresent : Derives (do
      let e ← value
      return some e) fun ts o _ => ∀ us : List Token, us = [] → OptionalPhrase (us ++ ts) o := by
    refine hv.bind fun e => .result fun rest ts hts us hus => ?_
    obtain rfl := hus
    simpa using OptionalPhrase.present hts
  refine Derives.look.bind fun o => ?_
  cases o with
  | none => exact hpresent.mono fun ts o rest h us hus => h us hus.1
  | some t =>
    dsimp only
    split
    · refine .result fun rest us hus => ?_
      obtain ⟨rfl, -⟩ := hus
      exact .absent
    · exact hpresent.mono fun ts o rest h us hus => h us hus.1

theorem derives_forClauses (hv : Derives value fun ts e _ => Phrase 0 ts e) :
    Derives (forClauses value) fun ts c _ =>
      ∃ left is cs semicolon ns right,
        ts = left :: is ++ (cs ++ semicolon :: (ns ++ [right])) ∧ left.kind = .leftParen ∧
        FirstClause is c.first ∧ OptionalPhrase cs c.condition ∧ semicolon.kind = .semicolon ∧
        OptionalPhrase ns c.step ∧ right.kind = .rightParen := by
  refine (Derives.expect _ _).bind fun left => (derives_firstClause hv).bind fun first =>
    (derives_optional hv _).bind fun condition => (Derives.expect _ _).bind fun semicolon =>
      (derives_optional hv _).bind fun step => (Derives.expect _ _).bind fun right =>
        .result fun rest rs hrs ns hns ms hms cs hcs is his ls hls => ?_
  obtain ⟨rfl, hright⟩ := hrs
  obtain ⟨rfl, hsemicolon⟩ := hms
  obtain ⟨rfl, hleft⟩ := hls
  exact ⟨left, is, cs, semicolon, ns, right, by simp, hleft, his, hcs, hsemicolon, hns, hright⟩

/-- What is read as a conditional is one, and it has the alternative that follows it. -/
theorem derives_conditional (hv : Derives value fun ts e _ => Phrase 0 ts e)
    (hn : Derives nested fun ts s rest => ∃ d, Sentence d ts s ∧ Complete d rest) {word : Token}
    (hw : word.kind = .ifWord) :
    Derives (conditional value nested word.line) fun ts s rest =>
      ∃ d, Sentence d (word :: ts) s ∧ Complete d rest := by
  refine (Derives.expect _ _).bind fun left => hv.bind fun c => (Derives.expect _ _).bind fun right =>
    hn.bind fun body => (Derives.accept _).bind fun o => ?_
  cases o with
  | none =>
    refine .result fun rest os hos ts hts rs hrs cs hcs ls hls => ?_
    obtain ⟨rfl, helse⟩ := hos
    obtain ⟨d, hs, -⟩ := hts
    obtain ⟨rfl, hright⟩ := hrs
    obtain ⟨rfl, hleft⟩ := hls
    refine ⟨true, by simpa using Sentence.ifThen hw hleft hcs hright hs, fun _ t ht => ?_⟩
    simpa using helse t ht
  | some other =>
    refine hn.bind fun t => .result fun rest us hus os hos ts hts rs hrs cs hcs ls hls => ?_
    obtain ⟨d', ht, hcomplete⟩ := hus
    obtain ⟨rfl, helse⟩ := hos
    obtain ⟨d, hs, hdangles⟩ := hts
    obtain ⟨rfl, hright⟩ := hrs
    obtain ⟨rfl, hleft⟩ := hls
    have helse : other.kind = .elseWord := by simpa using helse
    -- the body does not dangle, for otherwise it would not have been left in front of the "else"
    obtain rfl : d = false := by
      cases d with
      | false => rfl
      | true => exact absurd helse (hdangles rfl other rfl)
    exact ⟨d', by simpa using Sentence.ifElse hw hleft hcs hright hs helse ht,
      by simpa using hcomplete⟩

theorem derives_whileLoop (hv : Derives value fun ts e _ => Phrase 0 ts e)
    (hn : Derives nested fun ts s rest => ∃ d, Sentence d ts s ∧ Complete d rest) {word : Token}
    (hw : word.kind = .whileWord) :
    Derives (whileLoop value nested word.line) fun ts s rest =>
      ∃ d, Sentence d (word :: ts) s ∧ Complete d rest := by
  refine (Derives.expect _ _).bind fun left => hv.bind fun c => (Derives.expect _ _).bind fun right =>
    hn.bind fun body => .result fun rest ts hts rs hrs cs hcs ls hls => ?_
  obtain ⟨d, hs, hcomplete⟩ := hts
  obtain ⟨rfl, hright⟩ := hrs
  obtain ⟨rfl, hleft⟩ := hls
  exact ⟨d, by simpa using Sentence.whileLoop hw hleft hcs hright hs, by simpa using hcomplete⟩

theorem derives_forLoop (hv : Derives value fun ts e _ => Phrase 0 ts e)
    (hn : Derives nested fun ts s rest => ∃ d, Sentence d ts s ∧ Complete d rest) {word : Token}
    (hw : word.kind = .forWord) :
    Derives (forLoop value nested word.line) fun ts s rest =>
      ∃ d, Sentence d (word :: ts) s ∧ Complete d rest := by
  refine (derives_forClauses hv).bind fun clauses => hn.bind fun body =>
    .result fun rest ts hts us hus => ?_
  obtain ⟨d, hs, hcomplete⟩ := hts
  obtain ⟨left, is, cs, semicolon, ns, right, rfl, hleft, his, hcs, hsemicolon, hns, hright⟩ := hus
  refine ⟨d, ?_, by simpa using hcomplete⟩
  rw [Stmt.forLoop_eq_unrolled]
  simpa using Sentence.forLoop hw hleft his hcs hsemicolon hns hright hs

/-- What is read as a statement is one of the grammar. -/
theorem derives_statementOf (hv : Derives value fun ts e _ => Phrase 0 ts e)
    (hn : Derives nested fun ts s rest => ∃ d, Sentence d ts s ∧ Complete d rest)
    (hc : Consumes nested) :
    Derives (statementOf value nested) fun ts s rest => ∃ d, Sentence d ts s ∧ Complete d rest := by
  refine (Derives.accept _).bind fun o => ?_
  cases o with
  | none =>
    refine (derives_expressionStatement hv).mono fun ts s rest hs us hus => ?_
    obtain ⟨rfl, -⟩ := hus
    exact ⟨false, .expression hs, by simp [Complete]⟩
  | some t =>
    dsimp only
    split
    · next hk =>
      refine (derives_forLoop hv hn hk).mono fun ts s rest hs us hus => ?_
      obtain ⟨rfl, -⟩ := hus
      exact hs
    · next hk =>
      refine (derives_conditional hv hn hk).mono fun ts s rest hs us hus => ?_
      obtain ⟨rfl, -⟩ := hus
      exact hs
    · next hk =>
      refine hv.bind fun e => (Derives.expect _ _).bind fun semicolon =>
        .result fun rest ss hss es hes us hus => ?_
      obtain ⟨rfl, hsemicolon⟩ := hss
      obtain ⟨rfl, -⟩ := hus
      exact ⟨false, by simpa using Sentence.print hk hes hsemicolon, by simp [Complete]⟩
    · next hk =>
      refine (derives_whileLoop hv hn hk).mono fun ts s rest hs us hus => ?_
      obtain ⟨rfl, -⟩ := hus
      exact hs
    · next hfor hif hprint hwhile =>
      refine (derives_blockOf (derives_declarationOf hv hn)
        (consumes_declarationOf hv.composed hc)).bind fun body => .result fun rest ts hts us hus => ?_
      obtain ⟨ts, right, rfl, hbody, hright⟩ := hts
      obtain ⟨rfl, hk⟩ := hus
      have hleft : t.kind = .leftBrace := by
        simp only [List.mem_cons, List.not_mem_nil, or_false] at hk
        rcases hk with h | h | h | h | h
        · exact absurd h hfor
        · exact absurd h hif
        · exact absurd h hprint
        · exact absurd h hwhile
        · exact h
      exact ⟨false, by simpa using Sentence.block hleft hbody hright, by simp [Complete]⟩

end

/-- A statement that is read without an error is derived from the tokens that were passed, and an
"else" that it could have taken is not left behind. -/
theorem derives_statement (room : Nat) :
    Derives (statement room) fun ts s rest => ∃ d, Sentence d ts s ∧ Complete d rest := by
  induction room with
  | zero => exact .fail _
  | succ room ih => exact derives_statementOf (derives_expression room) ih (consumes_statement room)

/-- What is read as a declaration is one of the grammar. -/
theorem derives_declaration (room : Nat) :
    Derives (declaration room) fun ts s _ => Declaration ts s :=
  derives_declarationOf (derives_expression room) (derives_statement room)

end Parse

end LoxScript
