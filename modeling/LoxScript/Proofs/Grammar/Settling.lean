import LoxScript.Proofs.Grammar.Completeness
import LoxScript.Proofs.Grammar.Locality

/-!
# Results that further tokens do not change

A construct that has been read is read in the same way when something else follows it, provided that
what follows could not have been taken as a part of it: no operator and no sign of assignment behind
an expression, no "else" behind a statement. Behind a semicolon or a closing parenthesis or brace
anything may follow, and no construct looks at it.

`Settles F p` says so of a parsing step `p` and a condition `F` on what follows. The errors that were
noted on the way are noted again.
-/

namespace LoxScript

open ParseState

namespace Parse

variable {α β : Type}

/-! ## What may follow -/

/-- Anything may follow. -/
def Anything : List Token → Prop := fun _ => True

/-- What follows does not begin with an "else". -/
def NoElse (rest : List Token) : Prop := ∀ t, rest.head? = some t → t.kind ≠ .elseWord

/-- No operator follows that binds at `least` or more tightly. -/
def EndsTier (least : Nat) (rest : List Token) : Prop :=
  ∀ tier, tierOf? rest = some tier → tier.level < least

/-- What follows begins with a token of the given kind. -/
def Begins (kind : TokenKind) (rest : List Token) : Prop := ∃ t ts, rest = t :: ts ∧ t.kind = kind

theorem Begins.noElse {kind : TokenKind} {rest : List Token} (h : Begins kind rest)
    (hk : kind ≠ .elseWord) : NoElse rest := by
  obtain ⟨t, ts, rfl, rfl⟩ := h
  intro u hu
  cases hu
  exact hk

theorem Begins.endsPhrase {kind : TokenKind} {rest : List Token} (h : Begins kind rest)
    (hk : kind = .semicolon ∨ kind = .rightParen) : EndsPhrase rest := by
  obtain ⟨t, ts, rfl, rfl⟩ := h
  exact endsPhrase_cons hk

theorem EndsTier.mono {least least' : Nat} {rest : List Token} (h : EndsTier least rest)
    (hl : least ≤ least') : EndsTier least' rest :=
  fun tier ht => Nat.lt_of_lt_of_le (h tier ht) hl

theorem endsTier_of_endsPhrase {least : Nat} {rest : List Token} (h : EndsPhrase rest) :
    EndsTier least rest := by
  intro tier ht
  rw [h.1] at ht
  cases ht

/-- Where a level goes on, one of its operators comes. -/
theorem operator_of_not_endsTier {least : Nat} {rest : List Token} (h : ¬ EndsTier least rest) :
    ∃ tier u us, rest = u :: us ∧ Tier.of? u.kind = some tier ∧ least ≤ tier.level := by
  simp only [EndsTier, Classical.not_forall, Nat.not_lt] at h
  obtain ⟨tier, htier, hl⟩ := h
  obtain ⟨u, us, hr, hu⟩ := exists_of_tierOf? htier
  exact ⟨tier, u, us, hr, hu, hl⟩

/-! ## What is accepted -/

/-- Either such a token comes next, or none does. -/
theorem next_cases (such : Token → Prop) (rest : List Token) :
    (∃ u us, rest = u :: us ∧ such u) ∨ ∀ u, rest.head? = some u → ¬ such u := by
  cases rest with
  | nil => exact .inr nofun
  | cons u us =>
    by_cases hu : such u
    · exact .inl ⟨u, us, rfl, hu⟩
    · refine .inr fun v hv => ?_
      cases hv
      exact hu

/-- A token of another kind is left where it is. -/
theorem accept_of_other {kinds : List TokenKind} {s : ParseState}
    (h : ∀ u, s.cursor.rest.head? = some u → u.kind ∉ kinds) : accept kinds s = .ok none s := by
  have hfinds : Finds False (accept kinds) s none s := .accept_none h
  exact hfinds.resolve_right fun h => h.1

/-- A token of one of the kinds is passed. -/
theorem accept_of_mem {kinds : List TokenKind} {s : ParseState} {u : Token} {us : List Token}
    (hr : s.cursor.rest = u :: us) (hu : u.kind ∈ kinds) :
    accept kinds s = .ok (some u) s.advance := by
  have hpasses : s.Passes [u] s.advance := ⟨by rw [rest_advance, hr]; rfl, rfl⟩
  have hfinds : Finds False (accept kinds) s (some u) s.advance := .accept_some hpasses hu
  exact hfinds.resolve_right fun h => h.1

/-- The expected token is passed. -/
theorem expect_of_kind {kind : TokenKind} {cause : SyntaxCause} {s : ParseState} {u : Token}
    {us : List Token} (hr : s.cursor.rest = u :: us) (hu : u.kind = kind) :
    expect kind cause s = .ok u s.advance := by
  have hpasses : s.Passes [u] s.advance := ⟨by rw [rest_advance, hr]; rfl, rfl⟩
  have hfinds : Finds False (expect kind cause) s u s.advance := .expect hpasses hu
  exact hfinds.resolve_right fun h => h.1

/-- Where another token comes, it is blamed. -/
theorem expect_of_other {kind : TokenKind} {cause : SyntaxCause} {s : ParseState}
    (h : ∀ u, s.cursor.rest.head? = some u → u.kind ≠ kind) :
    expect kind cause s = .error ⟨s.cursor.current, cause⟩ s := by
  unfold expect Cursor.current
  cases hr : s.cursor.rest with
  | nil => rfl
  | cons u us =>
    rw [hr] at h
    exact if_neg (h u rfl)

/-! ## Steps whose results are settled -/

/-- If the step has a result at this state, then it has the same result at every state with the same
tokens to come up to there, whatever follows these, as long as `F` holds of it. -/
def KeepsAt (F : List Token → Prop) (p : Parse α) (s : ParseState) : Prop :=
  ∀ a s₁ us es t rest, p s = .ok a s₁ → s.Leads us es s₁ → t.cursor.rest = us ++ rest → F rest →
    p t = .ok a (t.after us.length es)

/-- The results of the step do not depend on what follows, as long as `F` holds of it. -/
structure Settles (F : List Token → Prop) (p : Parse α) : Prop where
  isLocal : Local p
  keeps : ∀ s, KeepsAt F p s

/-- Moreover, every result is behind at least one more token. -/
structure Closes (F : List Token → Prop) (p : Parse α) : Prop extends Settles F p where
  consumes : Consumes p

section

variable {F G : List Token → Prop} {p : Parse α} {f : α → Parse β} {s : ParseState}

/-- In a sequence, the first step has to be settled in front of what follows the sequence only where
the second step passes nothing. -/
theorem KeepsAt.sequence (hp : Local p) (hk : KeepsAt G p s) (hl : ∀ a, Local (f a))
    (hf : ∀ a s₁, p s = .ok a s₁ → KeepsAt F (f a) s₁)
    (hG : ∀ a s₁ b s₂ rest, p s = .ok a s₁ → f a s₁ = .ok b s₂ →
      s₁.cursor.rest = s₂.cursor.rest → F rest → G rest) : KeepsAt F (p >>= f) s := by
  intro b s₂ us es t rest h hs ht hrest
  obtain ⟨a, s₁, h₁, h₂⟩ := bind_eq_ok.mp h
  obtain ⟨us₁, es₁, hs₁⟩ := (hp.reads.of_ok h₁).leads
  obtain ⟨us₂, es₂, hs₂⟩ := ((hl a).reads.of_ok h₂).leads
  obtain ⟨rfl, rfl⟩ := hs.unique (hs₁.trans hs₂)
  rw [List.append_assoc] at ht
  have hfirst : p t = .ok a (t.after us₁.length es₁) := by
    cases us₂ with
    | nil => exact hk _ _ _ _ _ _ h₁ hs₁ ht (hG a s₁ b s₂ rest h₁ h₂ hs₂.1 hrest)
    | cons u us₂ =>
      refine hp.ok h₁ hs₁ ht ?_
      rw [hs₂.1]
      rfl
  have hsecond := hf a s₁ h₁ _ _ _ _ _ _ h₂ hs₂ (rest_after_append ht es₁) hrest
  rw [bind_of_ok hfirst, hsecond, after_after, List.length_append]

/-- Both steps keep their results if the second one settles for what the first one does. -/
theorem KeepsAt.bind (hp : Local p) (hk : KeepsAt G p s) (hl : ∀ a, Local (f a))
    (hf : ∀ a s₁, p s = .ok a s₁ → KeepsAt F (f a) s₁) (hG : ∀ rest, F rest → G rest) :
    KeepsAt F (p >>= f) s :=
  hk.sequence hp hl hf fun _ _ _ _ rest _ _ _ => hG rest

/-- It is clear from the token to come how to go on behind it. -/
theorem KeepsAt.passing {q : Parse α} {u : Token} {us : List Token} (hr : s.cursor.rest = u :: us)
    (hp : ∀ t ts, t.cursor.rest = u :: ts → p t = q t.advance) (hq : Frames Reads q)
    (hk : KeepsAt F q s.advance) : KeepsAt F p s := by
  intro a s₁ vs es t rest h hs ht hrest
  rw [hp s us hr] at h
  obtain ⟨ws, fs, hs'⟩ := (hq.of_ok h).leads
  obtain ⟨rfl, rfl⟩ := hs.unique ((leads_advance hr).trans hs')
  have hadvance : t.advance.cursor.rest = ws ++ rest := by
    rw [rest_advance, ht]
    rfl
  have hlater := hk _ _ _ _ _ _ h hs' hadvance hrest
  rw [hp t _ ht, hlater, (leads_advance ht).2, after_after, List.length_append, List.nil_append]

/-- It is clear from the token to come what is to be done, and then that token is passed. -/
theorem KeepsAt.starting {q : Parse α}
    (hp : ∀ t, t.cursor.rest.head? = s.cursor.rest.head? → p t = q t) (hc : Consumes q)
    (hk : KeepsAt F q s) : KeepsAt F p s := by
  intro a s₁ vs es t rest h hs ht hrest
  rw [hp s rfl] at h
  cases vs with
  | nil =>
    have hlt := hc s a s₁ h
    rw [hs.1] at hlt
    exact absurd hlt (Nat.lt_irrefl _)
  | cons v vs =>
    have hhead : t.cursor.rest.head? = s.cursor.rest.head? := by
      rw [ht, hs.1]
      rfl
    rw [hp t hhead]
    exact hk _ _ _ _ _ _ h hs ht hrest

theorem KeepsAt.closing {q : Parse α} (hq : Closes F q)
    (hp : ∀ t, t.cursor.rest.head? = s.cursor.rest.head? → p t = q t) : KeepsAt F p s :=
  .starting hp hq.consumes (hq.keeps s)

namespace Settles

theorem pure (a : α) : Settles F (pure a : Parse α) where
  isLocal := .pure a
  keeps s := by
    intro a' s₁ us es t rest h hs _ _
    cases h
    obtain ⟨rfl, rfl⟩ := hs.unique (Leads.refl s)
    rw [List.length_nil, after_zero]
    rfl

theorem bind (hp : Settles G p) (hf : ∀ a, Settles F (f a)) (hG : ∀ rest, F rest → G rest) :
    Settles F (p >>= f) where
  isLocal := hp.isLocal.bind fun a => (hf a).isLocal
  keeps s := (hp.keeps s).bind hp.isLocal (fun a => (hf a).isLocal)
    (fun a s₁ _ => (hf a).keeps s₁) hG

theorem note (e : SyntaxError) : Settles F (note e) where
  isLocal := .note e
  keeps s := by
    intro a s₁ us es t rest h hs _ _
    cases h
    have hnote : s.Leads [] [e] (s.note e) := ⟨rfl, rfl⟩
    obtain ⟨rfl, rfl⟩ := hs.unique hnote
    rfl

/-- Where no token is accepted, none may follow that would be. -/
theorem accept {kinds : List TokenKind}
    (h : ∀ rest, F rest → ∀ t, rest.head? = some t → t.kind ∉ kinds) :
    Settles F (accept kinds) where
  isLocal := .accept kinds
  keeps s := by
    intro o s₁ us es t rest ho hs ht hrest
    rcases next_cases (·.kind ∈ kinds) s.cursor.rest with ⟨u, vs, hr, hk⟩ | hother
    · rw [accept_of_mem hr hk] at ho
      cases ho
      obtain ⟨rfl, rfl⟩ := hs.unique (leads_advance hr)
      rw [accept_of_mem ht hk, (leads_advance ht).2]
    · rw [accept_of_other hother] at ho
      cases ho
      obtain ⟨rfl, rfl⟩ := hs.unique (Leads.refl s)
      rw [List.nil_append] at ht
      rw [accept_of_other (ht ▸ h rest hrest), List.length_nil, after_zero]

end Settles

namespace Closes

/-- A step that insists on a token never looks at the one behind it. -/
theorem expect (kind : TokenKind) (cause : SyntaxCause) : Closes F (expect kind cause) where
  isLocal := (Composed.expect kind cause).isLocal
  keeps s := by
    intro u s₁ us es t rest h hs ht _
    rcases next_cases (·.kind = kind) s.cursor.rest with ⟨v, vs, hr, hk⟩ | hother
    · rw [expect_of_kind hr hk] at h
      cases h
      obtain ⟨rfl, rfl⟩ := hs.unique (leads_advance hr)
      rw [expect_of_kind ht hk, (leads_advance ht).2]
    · rw [expect_of_other hother] at h
      cases h
  consumes := consumes_expect kind cause

/-- In front of a step that passes a token, a local step is settled. -/
theorem behind (hp : Local p) (hf : ∀ a, Closes F (f a)) : Closes F (p >>= f) where
  isLocal := hp.bind fun a => (hf a).isLocal
  keeps s := by
    have hnever : KeepsAt (fun _ => False) p s := fun _ _ _ _ _ _ _ _ _ h => h.elim
    refine hnever.sequence hp (fun a => (hf a).isLocal) (fun a s₁ _ => (hf a).keeps s₁) ?_
    intro a s₁ b s₂ rest _ h₂ hsame _
    have hlt := (hf a).consumes s₁ b s₂ h₂
    rw [hsame] at hlt
    exact Nat.lt_irrefl _ hlt
  consumes := by
    intro s b s₂ h
    obtain ⟨a, s₁, h₁, h₂⟩ := bind_eq_ok.mp h
    have hle := (hp.reads.of_ok h₁).length_le
    have hlt := (hf a).consumes s₁ b s₂ h₂
    omega

theorem bind (hp : Closes G p) (hf : ∀ a, Settles F (f a)) (hG : ∀ rest, F rest → G rest) :
    Closes F (p >>= f) where
  toSettles := hp.toSettles.bind hf hG
  consumes := by
    intro s b s₂ h
    obtain ⟨a, s₁, h₁, h₂⟩ := bind_eq_ok.mp h
    have hlt := hp.consumes s a s₁ h₁
    have hle := ((hf a).isLocal.reads.of_ok h₂).length_le
    omega

/-- A step that insists on a token and goes on. -/
theorem expecting {kind : TokenKind} {cause : SyntaxCause} {f : Token → Parse β}
    (hf : ∀ t, Settles F (f t)) : Closes F (Parse.expect kind cause >>= f) :=
  (expect kind cause).bind hf fun _ h => h

end Closes

end

/-! ## Expressions -/

section

variable {F : List Token → Prop} {operand inner nested primary target value : Parse Expr}

theorem closes_parenthesesOf (hi : Composed inner) (left : Token) :
    Closes F (parenthesesOf inner left) :=
  .behind hi.isLocal fun _ => .expecting fun _ => .pure _

/-- No token behind a primary expression is ever looked at. -/
theorem closes_primaryOf (hi : Composed inner) : Closes F (primaryOf inner) := by
  -- behind an atom or an opening parenthesis the step goes on with one that is settled
  have hbehind : ∀ s : ParseState,
      (∃ u us q, s.cursor.rest = u :: us ∧ Settles F q ∧
        ∀ t ts, t.cursor.rest = u :: ts → primaryOf inner t = q t.advance) ∨
      ∃ e, primaryOf inner s = .error e s := by
    intro s
    rcases primaryOf_cases s with ⟨u, us, hr, ⟨e, he⟩ | hparen⟩ | herror
    · exact .inl ⟨u, us, pure e, hr, .pure e, he inner⟩
    · exact .inl ⟨u, us, _, hr, (closes_parenthesesOf hi u).toSettles, hparen inner⟩
    · exact .inr ⟨_, herror inner⟩
  refine ⟨⟨(composed_primaryOf hi).isLocal, fun s => ?_⟩, fun s e s₁ h => ?_⟩ <;>
    rcases hbehind s with ⟨u, us, q, hr, hq, hp⟩ | ⟨err, herror⟩
  · exact .passing hr hp hq.isLocal.reads (hq.keeps _)
  · intro e s₁ us es t rest h
    rw [herror] at h
    cases h
  · rw [hp s us hr] at h
    have hle := (hq.isLocal.reads.of_ok h).length_le
    rw [rest_advance, hr] at hle
    rw [hr]
    exact Nat.lt_succ_of_le hle
  · rw [herror] at h
    cases h

theorem closes_unaryOf (hn : Closes F nested) (hp : Closes F primary) :
    Closes F (unaryOf nested primary) := by
  refine .behind (.accept _) fun o => ?_
  cases o with
  | none => exact hp
  | some op => exact hn.bind (fun _ => .pure _) fun _ h => h

/-- Whether an operator is folded is clear from the operator, and behind the last operand none
follows that could be. -/
theorem settles_climbAll (hc : Composed operand) (ho : Closes Anything operand) (least : Nat)
    (left : Expr) : Settles (EndsTier least) (climbAll operand least left) := by
  refine ⟨(composed_climbAll hc least left).isLocal, fun s => ?_⟩
  -- on the number of tokens to come; both the right operand and the rest have fewer
  induction hn : s.cursor.rest.length using Nat.strongRecOn generalizing s least left with
  | ind n ih =>
    by_cases hstop : EndsTier least s.cursor.rest
    · intro e s₁ us es t rest h hs ht hrest
      rw [climbAll_of_stop hstop] at h
      cases h
      obtain ⟨rfl, rfl⟩ := hs.unique (Leads.refl s)
      rw [List.length_nil, after_zero]
      rw [List.nil_append] at ht
      exact climbAll_of_stop (ht ▸ hrest)
    · obtain ⟨tier, u, us, hr, htier, hl⟩ := operator_of_not_endsTier hstop
      have hlocal : ∀ least left, Local (climbAll operand least left) :=
        fun least left => (composed_climbAll hc least left).isLocal
      have hlocal' := (composed_tiers hc (tier.level + 1)).isLocal
      have hlen : s.advance.cursor.rest.length < n := by
        rw [← hn, rest_advance, hr]
        exact Nat.lt_succ_self _
      refine .passing hr (fun t ts ht => climbAll_of_fold hc ht htier hl)
        (hlocal'.reads.bind fun right => (hlocal _ _).reads) ?_
      refine KeepsAt.bind (G := EndsTier (tier.level + 1)) hlocal' ?_ (fun right => hlocal _ _)
        (fun right s₁ h₁ => ?_) fun rest h => h.mono (Nat.le_succ_of_le hl)
      · rw [tiers_eq]
        refine (ho.keeps _).bind ho.isLocal (fun first => hlocal _ _) (fun first s₁ h₁ => ?_)
          fun _ _ => True.intro
        have hlt := ho.consumes _ _ _ h₁
        exact ih _ (by omega) _ _ _ rfl
      · have hle := (hlocal'.reads.of_ok h₁).length_le
        exact ih _ (by omega) _ _ _ rfl

theorem closes_tiers (hc : Composed operand) (ho : Closes Anything operand) (least : Nat) :
    Closes (EndsTier least) (tiers operand least) := by
  rw [tiers_eq]
  exact ho.bind (settles_climbAll hc ho least) fun _ _ => True.intro

/-- A sign may still follow the left side of an assignment. -/
theorem closes_assignmentOf (ht : Closes (EndsTier 1) target) (hv : Settles EndsPhrase value) :
    Closes EndsPhrase (assignmentOf target value) := by
  refine ht.bind (fun left => ?_) fun _ h => endsTier_of_endsPhrase h
  refine (Settles.accept fun rest h t hr => ?_).bind (fun o => ?_) fun _ h => h
  · simpa using h.2 t hr
  · cases o with
    | none => exact .pure _
    | some sign =>
      refine hv.bind (fun e => ?_) fun _ h => h
      split
      · exact .pure _
      · exact (Settles.note _).bind (fun _ => .pure _) fun _ h => h

theorem Closes.fail (cause : SyntaxCause) : Closes F (fail cause : Parse α) := by
  refine ⟨⟨.fail cause, ?_⟩, ?_⟩
  · intro s a s₁ us es t rest h
    cases h
  · intro s a s₁ h
    cases h

theorem closes_unary (room : Nat) : Closes F (unary room) := by
  induction room with
  | zero => exact .fail _
  | succ room ih => exact closes_unaryOf ih (closes_primaryOf (composed_expression room))

/-- Where an expression ends, its tokens are read alike whatever follows. -/
theorem closes_expression (room : Nat) : Closes EndsPhrase (expression room) := by
  induction room with
  | zero => exact .fail _
  | succ room ih =>
    have htiers := closes_tiers (composed_unary room) (closes_unary room) 1
    exact closes_assignmentOf htiers ih.toSettles

end

/-! ## Statements -/

section

variable {F : List Token → Prop} {value : Parse Expr} {nested declaration : Parse Stmt}

theorem closes_expressionStatement (hv : Composed value) : Closes F (expressionStatement value) :=
  .behind hv.isLocal fun _ => .expecting fun _ => .pure _

theorem closes_printStatement (hv : Composed value) (line : Int) :
    Closes F (printStatement value line) :=
  .behind hv.isLocal fun _ => .expecting fun _ => .pure _

theorem closes_variableDeclaration (hv : Composed value) :
    Closes F (variableDeclaration value) := by
  refine .expecting fun name => (Closes.behind (.accept _) fun o => ?_).toSettles
  cases o with
  | none => exact .behind (.pure _) fun _ => .expecting fun _ => .pure _
  | some _ =>
    exact .behind hv.isLocal fun _ => .behind (.pure _) fun _ => .expecting fun _ => .pure _

/-- Behind declarations in a row, a closing brace ends the row. -/
theorem settles_declarationsAll (hc : Composed declaration) (hd : Closes NoElse declaration) :
    Settles (Begins .rightBrace) (declarationsAll declaration) := by
  have hall : Local (declarationsAll declaration) :=
    (composed_declarationsAll hc hd.consumes).isLocal
  refine ⟨hall, fun s => ?_⟩
  -- on the number of tokens to come, as each declaration takes at least one
  induction hn : s.cursor.rest.length using Nat.strongRecOn generalizing s with
  | ind n ih =>
    by_cases hstop : ∀ t, s.cursor.rest.head? = some t → t.kind = .rightBrace
    · intro ds s₁ us es t rest h hs ht hrest
      rw [declarationsAll_of_stop hstop] at h
      cases h
      obtain ⟨rfl, rfl⟩ := hs.unique (Leads.refl s)
      rw [List.length_nil, after_zero]
      refine declarationsAll_of_stop fun u hu => ?_
      obtain ⟨v, vs, rfl, hk⟩ := hrest
      rw [ht] at hu
      cases hu
      exact hk
    · simp only [Classical.not_forall] at hstop
      obtain ⟨u, hu, hk⟩ := hstop
      have hgo : ∀ t : ParseState, t.cursor.rest.head? = s.cursor.rest.head? →
          declarationsAll declaration t =
            (do
              let d ← declaration
              let later ← declarationsAll declaration
              return d :: later) t := by
        intro t ht
        obtain ⟨ts, ht⟩ := List.head?_eq_some_iff.mp (ht.trans hu)
        exact declarationsAll_of_go hd.consumes ht hk
      refine .starting hgo (hd.consumes.before fun d =>
        .bind (composed_declarationsAll hc hd.consumes) fun _ => .pure _) ?_
      refine (hd.keeps s).bind hd.isLocal (fun d => hall.bind fun _ => .pure _) (fun d s₁ h₁ => ?_)
        fun rest h => h.noElse (by decide)
      have hlt := hd.consumes s d s₁ h₁
      exact (ih _ (by omega) s₁ rfl).bind hall (fun _ => .pure _)
        (fun later s₂ _ => (Settles.pure _).keeps s₂) fun _ h => h

theorem closes_declarationOf (hv : Composed value) (hn : Closes F nested) :
    Closes F (declarationOf value nested) := by
  refine .behind (.accept _) fun o => ?_
  cases o with
  | none => exact hn
  | some _ => exact closes_variableDeclaration hv

/-- Behind a block anything may follow: what ends the declarations in it is its closing brace. -/
theorem closes_blockOf (hd : Composed declaration) (hc : Consumes declaration) :
    Closes F (blockOf declaration) := by
  rw [blockOf_eq]
  exact .behind (composed_declarationsAll hd hc).isLocal fun _ => .expecting fun _ => .pure _

/-- A conditional is closed unless its alternative may follow. -/
theorem closes_conditional (hv : Composed value) (hn : Closes NoElse nested) (line : Int) :
    Closes NoElse (conditional value nested line) := by
  refine .expecting fun _ => (Closes.behind hv.isLocal fun c => .expecting fun _ => ?_).toSettles
  refine hn.toSettles.bind (fun body => ?_) fun _ h => h
  refine (Settles.accept fun rest h t hr => ?_).bind (fun o => ?_) fun _ h => h
  · simpa using h t hr
  · cases o with
    | none => exact .pure _
    | some _ => exact hn.toSettles.bind (fun _ => .pure _) fun _ h => h

theorem closes_whileLoop (hv : Composed value) (hn : Closes F nested) (line : Int) :
    Closes F (whileLoop value nested line) :=
  .expecting fun _ => (Closes.behind hv.isLocal fun _ => .expecting fun _ =>
    hn.toSettles.bind (fun _ => .pure _) fun _ h => h).toSettles

theorem optional_of_kind {kind : TokenKind} {s : ParseState}
    (h : ∃ u, s.cursor.rest.head? = some u ∧ u.kind = kind) :
    optional value kind s = .ok none s := by
  obtain ⟨u, hu, hk⟩ := h
  have hlook : look s = .ok (some u) s := congrArg (EStateM.Result.ok · s) hu
  rw [optional, bind_of_ok hlook]
  simp only [if_pos hk]
  rfl

theorem optional_of_other {kind : TokenKind} {s : ParseState}
    (h : ¬ ∃ u, s.cursor.rest.head? = some u ∧ u.kind = kind) :
    optional value kind s = (value >>= fun e => pure (some e)) s := by
  cases hu : s.cursor.rest.head? with
  | none =>
    have hlook : look s = .ok none s := congrArg (EStateM.Result.ok · s) hu
    rw [optional, bind_of_ok hlook]
  | some u =>
    have hlook : look s = .ok (some u) s := congrArg (EStateM.Result.ok · s) hu
    rw [optional, bind_of_ok hlook]
    simp only [if_neg fun hk => h ⟨u, hu, hk⟩]

/-- A clause that may be missing settles where the token behind it comes. -/
theorem settles_optional {kind : TokenKind} (hv : Closes EndsPhrase value)
    (hkind : kind = .semicolon ∨ kind = .rightParen) :
    Settles (Begins kind) (optional value kind) := by
  have hsome : Closes (Begins kind) (value >>= fun e => pure (some e)) :=
    hv.bind (fun _ => .pure _) fun rest h => h.endsPhrase hkind
  have hlocal : ∀ s, KeepsAt (Begins kind) (optional value kind) s := by
    intro s
    by_cases hk : ∃ u, s.cursor.rest.head? = some u ∧ u.kind = kind
    · intro o s₁ us es t rest h hs ht hrest
      rw [optional_of_kind hk] at h
      cases h
      obtain ⟨rfl, rfl⟩ := hs.unique (Leads.refl s)
      obtain ⟨v, vs, rfl, hv⟩ := hrest
      rw [List.length_nil, after_zero]
      exact optional_of_kind ⟨v, by rw [ht]; rfl, hv⟩
    · refine .closing hsome fun t ht => optional_of_other ?_
      rwa [ht]
  refine ⟨?_, hlocal⟩
  refine Local.look.bind fun o => ?_
  cases o with
  | none => exact hv.isLocal.bind fun _ => .pure _
  | some t =>
    dsimp only
    split
    · exact .pure _
    · exact hv.isLocal.bind fun _ => .pure _

theorem settles_firstClause (hv : Composed value) : Settles F (firstClause value) := by
  refine ⟨(composed_firstClause hv).isLocal, fun s => ?_⟩
  rcases next_cases (·.kind ∈ [TokenKind.semicolon]) s.cursor.rest with ⟨u, us, hr, hk⟩ | hother
  · exact .passing hr (q := pure none) (fun t ts ht => bind_of_ok (accept_of_mem ht hk)) (.pure _)
      ((Settles.pure _).keeps _)
  · refine .closing ?_ fun t ht =>
      bind_of_ok (accept_of_other fun u hu => hother u (ht ▸ hu))
    refine .behind (.accept _) fun o => ?_
    cases o with
    | some _ => exact (closes_variableDeclaration hv).bind (fun _ => .pure _) fun _ h => h
    | none => exact (closes_expressionStatement hv).bind (fun _ => .pure _) fun _ h => h

theorem closes_forClauses (hv : Composed value) : Closes F (forClauses value) :=
  .expecting fun _ => (Closes.behind (composed_firstClause hv).isLocal fun _ =>
    .behind (composed_optional hv _).isLocal fun _ => .expecting fun _ =>
      (Closes.behind (composed_optional hv _).isLocal fun _ =>
        .expecting fun _ => .pure _).toSettles).toSettles

theorem closes_forLoop (hv : Composed value) (hn : Closes F nested) (line : Int) :
    Closes F (forLoop value nested line) :=
  (closes_forClauses hv).bind (fun _ => hn.toSettles.bind (fun _ => .pure _) fun _ h => h)
    fun _ h => h

theorem closes_statementOf (hv : Composed value) (hs : Composed nested)
    (hn : Closes NoElse nested) :
    Closes NoElse (statementOf value nested) := by
  refine .behind (.accept _) fun o => ?_
  cases o with
  | none => exact closes_expressionStatement hv
  | some t =>
    dsimp only
    split
    · exact closes_forLoop hv hn _
    · exact closes_conditional hv hn _
    · exact closes_printStatement hv _
    · exact closes_whileLoop hv hn _
    · exact (closes_blockOf (composed_declarationOf hv hs)
        (consumes_declarationOf hv hn.consumes)).bind (fun _ => .pure _) fun _ h => h

end

/-- A statement is closed unless an alternative may follow. -/
theorem closes_statement (room : Nat) : Closes NoElse (statement room) := by
  induction room with
  | zero => exact .fail _
  | succ room ih =>
    exact closes_statementOf (composed_expression room) (composed_statement room) ih

/-- Only an "else" can change how a declaration is read that stands in front of it. -/
theorem closes_declaration (room : Nat) : Closes NoElse (declaration room) :=
  closes_declarationOf (composed_expression room) (closes_statement room)

end Parse

end LoxScript
