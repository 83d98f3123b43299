import LoxScript.Proofs.Grammar.Settling

/-!
# Unfinished constructs can be finished

Where the reading of a construct breaks off, the tokens that were read so far are the beginning of
such a construct: a few more tokens finish it (`Continues`). The missing operand, name, sign or
parenthesis comes first, and then whatever the enclosing constructs still lack, in the shortest form
that they admit: "nil" for an expression, "nil;" for a statement.

The one break that no further tokens make up for is that constructs nest too deeply for the room at
hand. So the construct is finished with a little more room than it was read with; up to the break,
the additional room makes no difference.
-/

namespace LoxScript

open ParseState

/-- A token that finishes an unfinished construct. -/
inductive Filler where
  | operand | name | semicolon | leftParen | rightParen | rightBrace

namespace Filler

/-- The kind of such a token. -/
def kind : Filler → TokenKind
  | operand => .nilWord
  | name => .identifier
  | semicolon => .semicolon
  | leftParen => .leftParen
  | rightParen => .rightParen
  | rightBrace => .rightBrace

/-- How such a token is written. -/
def lexeme : Filler → String
  | operand => "nil"
  | name => "a"
  | semicolon => ";"
  | leftParen => "("
  | rightParen => ")"
  | rightBrace => "\x7d"

/-- Such a token on a line. -/
def token (line : Int) (f : Filler) : Token := ⟨f.kind, f.lexeme, .nil, line⟩

@[simp] theorem kind_token (line : Int) (f : Filler) : (f.token line).kind = f.kind := rfl

/-- Such tokens in a row, on one line. -/
def tokens (line : Int) (fs : List Filler) : List Token := fs.map (token line)

theorem tokens_append (line : Int) (fs gs : List Filler) :
    tokens line (fs ++ gs) = tokens line fs ++ tokens line gs := List.map_append

end Filler

open Filler

namespace Parse

variable {α β : Type}

/-! ## What is taken -/

/-- In front of tokens that satisfy `F`, the step takes exactly the tokens `ts`. -/
def Takes (F : List Token → Prop) (p : Parse α) (ts : List Token) : Prop :=
  ∀ t rest, t.cursor.rest = ts ++ rest → F rest → ∃ a t₁, p t = .ok a t₁ ∧ t₁.cursor.rest = rest

namespace Takes

variable {F G : List Token → Prop} {p : Parse α} {f : α → Parse β} {us vs : List Token}

theorem result (a : α) : Takes F (pure a) [] := fun t _ ht _ => ⟨a, t, rfl, ht⟩

theorem bind (hp : Takes G p us) (hf : ∀ a, Takes F (f a) vs)
    (hG : ∀ rest, F rest → G (vs ++ rest)) : Takes F (p >>= f) (us ++ vs) := by
  intro t rest ht hrest
  rw [List.append_assoc] at ht
  obtain ⟨a, t₁, h₁, ht₁⟩ := hp t (vs ++ rest) ht (hG rest hrest)
  obtain ⟨b, t₂, h₂, ht₂⟩ := hf a t₁ rest ht₁ hrest
  exact ⟨b, t₂, (bind_of_ok h₁).trans h₂, ht₂⟩

theorem expect {kind : TokenKind} {cause : SyntaxCause} {u : Token} (hu : u.kind = kind) :
    Takes F (expect kind cause) [u] := by
  intro t rest ht _
  refine ⟨u, t.advance, expect_of_kind ht hu, ?_⟩
  rw [rest_advance, ht]
  rfl

/-- None of the tokens to come is accepted, so the step goes on without one. -/
theorem accepting {kinds : List TokenKind} {f : Option Token → Parse β} (hf : Takes F (f none) vs)
    (hhead : ∀ rest u, F rest → (vs ++ rest).head? = some u → u.kind ∉ kinds) :
    Takes F (accept kinds >>= f) vs := by
  intro t rest ht hrest
  have hnone : Parse.accept kinds t = .ok none t :=
    accept_of_other fun u hu => hhead rest u hrest (ht ▸ hu)
  obtain ⟨b, t₁, h, ht₁⟩ := hf t rest ht hrest
  exact ⟨b, t₁, (bind_of_ok hnone).trans h, ht₁⟩

end Takes

/-! ## What can be finished -/

/-- The second step is the first one with more room. Where the first one breaks off at this state,
and not for lack of room, the tokens up to there and some more are taken by the second one. -/
structure ContinuesAt (line : Int) (F : List Token → Prop) (p q : Parse α) (s : ParseState) :
    Prop where
  agrees : q s = p s ∨ ∃ e s₁, p s = .error e s₁ ∧ e.cause = .tooDeep
  continues : ∀ e s₁ us, p s = .error e s₁ → e.cause ≠ .tooDeep →
    s.cursor.rest = us ++ s₁.cursor.rest →
      e.cause ≠ .invalidTarget ∧ ∃ fs, Takes F q (us ++ tokens line fs)

/-- What the first step reads the second one can finish; by themselves, the tokens `vs` are enough
for it. -/
structure Continues (line : Int) (F : List Token → Prop) (vs : List Filler) (p q : Parse α) :
    Prop where
  isLocal : Local q
  takes : Takes F q (tokens line vs)
  continuesAt : ∀ s, ContinuesAt line F p q s

/-- Moreover, the results of the second step are settled. -/
structure Completes (line : Int) (F : List Token → Prop) (vs : List Filler) (p q : Parse α) :
    Prop extends Continues line F vs p q where
  settles : Settles F q

variable {line : Int} {F G : List Token → Prop} {us vs : List Filler}

namespace ContinuesAt

variable {p q : Parse α} {f g : α → Parse β} {s s₁ : ParseState} {a : α}

/-- What is read in less room is read in more room as well. -/
theorem of_ok (h : ContinuesAt line F p q s) (hp : p s = .ok a s₁) : q s = .ok a s₁ := by
  rcases h.agrees with hq | ⟨e, s₂, he, -⟩
  · exact hq.trans hp
  · rw [hp] at he
    cases he

theorem of_error (h : ContinuesAt line F p q s) {e : SyntaxError} (hp : p s = .error e s₁)
    (he : e.cause ≠ .tooDeep) : q s = .error e s₁ := by
  rcases h.agrees with hq | ⟨e', s₂, he', hdeep⟩
  · exact hq.trans hp
  · rw [hp] at he'
    cases he'
    exact absurd hdeep he

theorem result (hp : p s = .ok a s₁) (hq : q s = .ok a s₁) : ContinuesAt line F p q s := by
  refine ⟨.inl (hq.trans hp.symm), fun e s₂ us h => ?_⟩
  rw [hp] at h
  cases h

/-- Where the room is used up, more room may lead anywhere. -/
theorem tooDeep {e : SyntaxError} (hp : p s = .error e s₁) (he : e.cause = .tooDeep) :
    ContinuesAt line F p q s := by
  refine ⟨.inr ⟨e, s₁, hp, he⟩, fun e' s₂ us h he' => ?_⟩
  rw [hp] at h
  cases h
  exact absurd he he'

/-- In a sequence, a break of the first step is made up for, and then the tokens `vs` follow that are
enough for the second step. A break of the second step is made up for behind a result of the first,
which is the same whatever follows; but where nothing was taken of the second step, it is the tokens
`vs` that follow, since the result of the first step is settled in front of these. -/
theorem bind (vs : List Filler) (hq : Settles G q) (hg : ∀ a, Local (g a))
    (hp : ContinuesAt line G p q s)
    (hf : ∀ a s₁, p s = .ok a s₁ → ContinuesAt line F (f a) (g a) s₁)
    (hvs : ∀ a, Takes F (g a) (tokens line vs)) (hG : ∀ rest, F rest → G (tokens line vs ++ rest)) :
    ContinuesAt line F (p >>= f) (q >>= g) s := by
  constructor
  · cases h : p s with
    | ok a s₁ =>
      have h' := hp.of_ok h
      rw [bind_of_ok h, bind_of_ok h']
      exact (hf a s₁ h).agrees
    | error e s₁ =>
      rw [bind_of_error h]
      by_cases he : e.cause = .tooDeep
      · exact .inr ⟨e, s₁, rfl, he⟩
      · exact .inl (bind_of_error (hp.of_error h he))
  · intro e s₂ ts h he hr
    rcases bind_eq_error.mp h with h | ⟨a, s₁, h₁, h₂⟩
    · obtain ⟨hcause, fs, hfs⟩ := hp.continues e s₂ ts h he hr
      refine ⟨hcause, fs ++ vs, ?_⟩
      rw [tokens_append, ← List.append_assoc]
      exact hfs.bind hvs hG
    · have hlater := hf a s₁ h₁
      have hq₁ := hp.of_ok h₁
      have hg₂ := hlater.of_error h₂ he
      obtain ⟨ts₁, es₁, hs₁⟩ := (hq.isLocal.reads.of_ok hq₁).leads
      obtain ⟨ts₂, es₂, hs₂⟩ := ((hg a).reads.of_error hg₂).leads
      obtain rfl : ts = ts₁ ++ ts₂ := by
        rw [hs₁.1, hs₂.1, ← List.append_assoc] at hr
        exact (List.append_cancel_right hr).symm
      obtain ⟨hcause, fs, hfs⟩ := hlater.continues e s₂ ts₂ h₂ he hs₂.1
      refine ⟨hcause, ?_⟩
      cases ts₂ with
      | nil =>
        refine ⟨vs, fun t rest ht hrest => ?_⟩
        rw [List.append_nil, List.append_assoc] at ht
        have hfirst := hq.keeps s a s₁ ts₁ es₁ t _ hq₁ hs₁ ht (hG rest hrest)
        obtain ⟨b, t₁, hb, ht₁⟩ := hvs a _ rest (rest_after_append ht es₁) hrest
        exact ⟨b, t₁, (bind_of_ok hfirst).trans hb, ht₁⟩
      | cons u ts₂ =>
        refine ⟨fs, fun t rest ht hrest => ?_⟩
        rw [List.append_assoc, List.append_assoc] at ht
        have hfirst := hq.isLocal.ok hq₁ hs₁ ht (by rw [hs₂.1]; rfl)
        obtain ⟨b, t₁, hb, ht₁⟩ := hfs _ rest
          ((rest_after_append ht es₁).trans (List.append_assoc _ _ _).symm) hrest
        exact ⟨b, t₁, (bind_of_ok hfirst).trans hb, ht₁⟩

variable {p' q' : Parse α}

/-- It is clear from the token to come how to go on behind it. -/
theorem passing {u : Token} {ts : List Token} (hr : s.cursor.rest = u :: ts)
    (hp : p s = p' s.advance) (hq : ∀ t ts, t.cursor.rest = u :: ts → q t = q' t.advance)
    (hl : Local q') (h : ContinuesAt line F p' q' s.advance) : ContinuesAt line F p q s := by
  constructor
  · rw [hp, hq s ts hr]
    exact h.agrees
  · intro e s₁ vs he hdeep hvs
    rw [hp] at he
    obtain ⟨ws, es, hs⟩ := (hl.reads.of_error (h.of_error he hdeep)).leads
    obtain ⟨hcause, fs, hfs⟩ := h.continues e s₁ ws he hdeep hs.1
    have hall := (leads_advance hr).trans hs
    obtain rfl : vs = u :: ws := List.append_cancel_right (hvs.symm.trans hall.1)
    refine ⟨hcause, fs, fun t rest ht hrest => ?_⟩
    rw [hq t _ ht]
    refine hfs t.advance rest ?_ hrest
    rw [rest_advance, ht]
    rfl

/-- It is clear from the token to come what is to be done. If nothing is taken, then other tokens may
finish the construct instead. -/
theorem starting (vs : List Filler) (hp : p s = p' s)
    (hq : ∀ t, t.cursor.rest.head? = s.cursor.rest.head? → q t = q' t)
    (h : ContinuesAt line F p' q' s) (hvs : Takes F q (tokens line vs)) :
    ContinuesAt line F p q s := by
  constructor
  · rw [hp, hq s rfl]
    exact h.agrees
  · intro e s₁ ts he hdeep hr
    rw [hp] at he
    obtain ⟨hcause, fs, hfs⟩ := h.continues e s₁ ts he hdeep hr
    refine ⟨hcause, ?_⟩
    cases ts with
    | nil => exact ⟨vs, hvs⟩
    | cons u ts =>
      refine ⟨fs, fun t rest ht hrest => ?_⟩
      have hhead : t.cursor.rest.head? = s.cursor.rest.head? := by
        rw [ht, hr]
        rfl
      rw [hq t hhead]
      exact hfs t rest ht hrest

/-- Whether a token is accepted or not, the construct behind it can be finished. -/
theorem accepting {kinds : List TokenKind} {f g : Option Token → Parse β} (hg : ∀ o, Local (g o))
    (hsome : ∀ u s, u.kind ∈ kinds → ContinuesAt line F (f (some u)) (g (some u)) s)
    (hnone : ContinuesAt line F (f none) (g none) s)
    (hvs : Takes F (accept kinds >>= g) (tokens line vs)) :
    ContinuesAt line F (accept kinds >>= f) (accept kinds >>= g) s := by
  rcases next_cases (·.kind ∈ kinds) s.cursor.rest with ⟨u, ts, hr, hk⟩ | hnext
  · exact passing hr (bind_of_ok (accept_of_mem hr hk))
      (fun t ts ht => bind_of_ok (accept_of_mem ht hk)) (hg _) (hsome u _ hk)
  · have hother : ∀ t : ParseState, t.cursor.rest.head? = s.cursor.rest.head? →
        accept kinds t = .ok none t := fun t ht =>
      accept_of_other fun u hu => hnext u (ht ▸ hu)
    exact starting _ (bind_of_ok (hother s rfl)) (fun t ht => bind_of_ok (hother t ht)) hnone hvs

end ContinuesAt

namespace Continues

variable {p q : Parse α} {f g : α → Parse β}

theorem result (a : α) : Continues line F [] (pure a) (pure a) :=
  ⟨.pure a, .result a, fun _ => .result rfl rfl⟩

/-- If the first construct is finished, the second one has to be taken as a whole. -/
theorem bind (hp : Completes line G us p q) (hf : ∀ a, Continues line F vs (f a) (g a))
    (hG : ∀ rest, F rest → G (tokens line vs ++ rest)) :
    Continues line F (us ++ vs) (p >>= f) (q >>= g) where
  isLocal := hp.settles.isLocal.bind fun a => (hf a).isLocal
  takes := by
    rw [tokens_append]
    exact hp.takes.bind (fun a => (hf a).takes) hG
  continuesAt s := .bind _ hp.settles (fun a => (hf a).isLocal) (hp.continuesAt s)
    (fun a s₁ _ => (hf a).continuesAt s₁) (fun a => (hf a).takes) hG

/-- A step that can do without any tokens comes last. -/
theorem ending (hp : Completes line G us p q) (hf : ∀ a, Continues line F [] (f a) (g a))
    (hG : ∀ rest, F rest → G rest) : Continues line F us (p >>= f) (q >>= g) := by
  have h : Continues line F (us ++ []) (p >>= f) (q >>= g) := .bind hp hf hG
  rwa [List.append_nil] at h

/-- A step that insists on a token: what is missing is that token. -/
theorem expecting {filler : Filler} {kind : TokenKind} {cause : SyntaxCause} {f g : Token → Parse β}
    (hkind : filler.kind = kind) (hcause : cause ≠ .invalidTarget)
    (hf : ∀ t, Continues line F vs (f t) (g t)) :
    Continues line F (filler :: vs) (expect kind cause >>= f) (expect kind cause >>= g) := by
  have htakes : Takes Anything (expect kind cause) (tokens line [filler]) :=
    .expect (u := filler.token line) hkind
  have hcompletes : Completes line Anything [filler] (expect kind cause) (expect kind cause) := by
    refine ⟨⟨(Composed.expect _ _).isLocal, htakes, fun s => ⟨.inl rfl, ?_⟩⟩,
      (Closes.expect _ _).toSettles⟩
    intro e s₁ ts he _ hr
    rcases next_cases (·.kind = kind) s.cursor.rest with ⟨u, us, hr, hk⟩ | hother
    · rw [expect_of_kind hr hk] at he
      cases he
    · rw [expect_of_other hother] at he
      cases he
      obtain rfl : ts = [] := List.self_eq_append_left.mp hr
      exact ⟨hcause, [filler], htakes⟩
  exact bind hcompletes hf fun _ _ => True.intro

/-- The same for a construct that is finished in every state. -/
theorem accepting {kinds : List TokenKind} {f g : Option Token → Parse β}
    (hsome : ∀ u, ∃ ws, Continues line F ws (f (some u)) (g (some u)))
    (hnone : Continues line F vs (f none) (g none))
    (hhead : ∀ rest u, F rest → (tokens line vs ++ rest).head? = some u → u.kind ∉ kinds) :
    Continues line F vs (accept kinds >>= f) (accept kinds >>= g) := by
  have hlocal : ∀ o, Local (g o) := by
    intro o
    cases o with
    | none => exact hnone.isLocal
    | some u =>
      obtain ⟨ws, h⟩ := hsome u
      exact h.isLocal
  have htakes := hnone.takes.accepting hhead
  refine ⟨(Local.accept kinds).bind hlocal, htakes, fun s => ?_⟩
  refine .accepting hlocal (fun u s _ => ?_) (hnone.continuesAt s) htakes
  obtain ⟨ws, h⟩ := hsome u
  exact h.continuesAt s

end Continues

/-! ## Expressions -/

section

variable {operand operand' inner inner' nested nested' : Parse Expr}
  {primary primary' target target' value value' : Parse Expr}

/-- The step and the one with more room read expressions. -/
abbrev ContinuesPhrases (line : Int) (value value' : Parse Expr) : Prop :=
  Completes line EndsPhrase [.operand] value value'

/-- A semicolon or a closing parenthesis that is added ends an expression. -/
theorem endsPhrase_filler {f : Filler} {rest : List Token}
    (h : f = .semicolon ∨ f = .rightParen) : EndsPhrase (f.token line :: rest) := by
  refine endsPhrase_cons ?_
  rcases h with rfl | rfl
  · exact .inl rfl
  · exact .inr rfl

/-- An open parenthesis is finished by an operand and its counterpart. -/
theorem continues_parenthesesOf (hi : ContinuesPhrases line inner inner') (left : Token) :
    Continues line F [.operand, .rightParen] (parenthesesOf inner left)
      (parenthesesOf inner' left) :=
  .bind hi (fun _ => .expecting rfl (by decide) fun _ => .result _)
    fun _ _ => endsPhrase_filler (.inr rfl)

/-- An operand is an expression by itself. -/
theorem takes_primaryOf : Takes F (primaryOf inner) (tokens line [.operand]) := by
  intro t rest ht _
  refine ⟨_, t.advance, primaryOf_of_atom ht rfl, ?_⟩
  rw [rest_advance, ht]
  rfl

/-- A primary expression is finished by an operand. -/
theorem continues_primaryOf (hc : Composed inner') (hi : ContinuesPhrases line inner inner') :
    Continues line F [.operand] (primaryOf inner) (primaryOf inner') := by
  refine ⟨(composed_primaryOf hc).isLocal, takes_primaryOf, fun s => ?_⟩
  rcases primaryOf_cases s with ⟨u, us, hr, ⟨e, he⟩ | hparen⟩ | herror
  · exact .result (he inner s us hr) (he inner' s us hr)
  · have hparentheses := continues_parenthesesOf (F := F) hi u
    exact .passing hr (hparen inner s us hr) (hparen inner') hparentheses.isLocal
      (hparentheses.continuesAt _)
  · refine ⟨.inl ((herror inner').trans (herror inner).symm), fun e s₁ ts h _ hr => ?_⟩
    rw [herror inner] at h
    cases h
    obtain rfl : ts = [] := List.self_eq_append_left.mp hr
    exact ⟨nofun, [.operand], takes_primaryOf⟩

theorem continues_unaryOf (hn : Completes line F [.operand] nested nested')
    (hp : Continues line F [.operand] primary primary') :
    Continues line F [.operand] (unaryOf nested primary) (unaryOf nested' primary') := by
  refine .accepting (fun op => ⟨[.operand], ?_⟩) hp fun rest u _ hu => ?_
  · exact .ending hn (fun _ => .result _) fun _ h => h
  · cases hu
    simp [kind]

/-- Where no operator comes, none is folded. -/
theorem takes_climbAll {least : Nat} {left : Expr} :
    Takes (EndsTier least) (climbAll operand least left) [] := by
  intro t rest ht hrest
  rw [List.nil_append] at ht
  exact ⟨left, t, climbAll_of_stop (ht ▸ hrest), ht⟩

/-- An operator without its right operand is finished by an operand. -/
theorem continuesAt_climbAll (hc : Composed operand) (hc' : Composed operand')
    (ho : Completes line Anything [.operand] operand operand') (hclose : Closes Anything operand')
    (least : Nat) (left : Expr) (s : ParseState) :
    ContinuesAt line (EndsTier least) (climbAll operand least left) (climbAll operand' least left)
      s := by
  have hlocal : ∀ least left, Local (climbAll operand' least left) :=
    fun least left => (composed_climbAll hc' least left).isLocal
  induction hn : s.cursor.rest.length using Nat.strongRecOn generalizing s least left with
  | ind n ih =>
    by_cases hstop : EndsTier least s.cursor.rest
    · exact .result (climbAll_of_stop hstop) (climbAll_of_stop hstop)
    · obtain ⟨tier, u, us, hr, htier, hl⟩ := operator_of_not_endsTier hstop
      have hlen : s.advance.cursor.rest.length < n := by
        rw [← hn, rest_advance, hr]
        exact Nat.lt_succ_self _
      have hsettles := (closes_tiers hc' hclose (tier.level + 1)).toSettles
      refine .passing hr (climbAll_of_fold hc hr htier hl)
        (fun t ts ht => climbAll_of_fold hc' ht htier hl)
        (hsettles.isLocal.bind fun right => hlocal _ _) ?_
      refine .bind [] hsettles (fun right => hlocal _ _) ?_ (fun right s₁ h₁ => ?_)
        (fun _ => takes_climbAll) fun rest h => h.mono (Nat.le_succ_of_le hl)
      · rw [tiers_eq, tiers_eq]
        refine .bind [] ho.settles (fun first => hlocal _ _) (ho.continuesAt _)
          (fun first s₁ h₁ => ?_) (fun _ => takes_climbAll) fun _ _ => True.intro
        have hle := (hc.frames.of_ok h₁).length_le
        exact ih _ (by omega) _ _ _ rfl
      · have hle := ((composed_tiers hc _).frames.of_ok h₁).length_le
        exact ih _ (by omega) _ _ _ rfl

theorem continues_tiers (hc : Composed operand) (hc' : Composed operand')
    (ho : Completes line Anything [.operand] operand operand') (hclose : Closes Anything operand')
    (least : Nat) :
    Continues line (EndsTier least) [.operand] (tiers operand least) (tiers operand' least) := by
  rw [tiers_eq, tiers_eq]
  refine .ending ho (fun left => ?_) fun _ _ => True.intro
  exact ⟨(composed_climbAll hc' least left).isLocal, takes_climbAll,
    continuesAt_climbAll hc hc' ho hclose least left⟩

/-- A sign without a value is finished by an operand. -/
theorem continues_assignmentOf (ht : Completes line (EndsTier 1) [.operand] target target')
    (hv : ContinuesPhrases line value value') :
    Continues line EndsPhrase [.operand] (assignmentOf target value)
      (assignmentOf target' value') := by
  refine .ending ht (fun left => ?_) fun _ h => endsTier_of_endsPhrase h
  refine .accepting (fun sign => ⟨[.operand], ?_⟩) (.result _) fun rest u h hu => ?_
  · refine .ending hv (fun e => ?_) fun _ h => h
    split
    · exact .result _
    · refine ⟨(Local.note _).bind fun _ => .pure _, fun t rest ht _ => ?_, fun s => ?_⟩
      · exact ⟨_, _, rfl, ht⟩
      · exact .result rfl rfl
  · simpa using h.2 u hu

/-- A little room is enough to read an operand. -/
theorem takes_unary {room : Nat} (h : 1 ≤ room) :
    Takes F (unary room) (tokens line [.operand]) := by
  obtain ⟨room, rfl⟩ : ∃ n, room = n + 1 := ⟨room - 1, by omega⟩
  refine .accepting takes_primaryOf fun rest u _ hu => ?_
  cases hu
  simp [kind]

theorem takes_expression {room : Nat} (h : 2 ≤ room) :
    Takes EndsPhrase (expression room) (tokens line [.operand]) := by
  obtain ⟨room, rfl⟩ : ∃ n, room = n + 1 := ⟨room - 1, by omega⟩
  have htiers : Takes (EndsTier 1) (tiers (unary room) 1) (tokens line [.operand]) := by
    rw [tiers_eq]
    have hunary : Takes Anything (unary room) (tokens line [.operand]) := takes_unary (by omega)
    exact hunary.bind (fun _ => takes_climbAll) fun _ _ => True.intro
  refine htiers.bind (fun left => .accepting (.result left) fun rest u h hu => ?_)
    fun _ h => endsTier_of_endsPhrase h
  simpa using h.2 u hu

/-- Expressions can be finished with two more levels of nesting. -/
theorem completes_phrases (room : Nat) : ∀ room', room + 2 ≤ room' →
    Completes line Anything [.operand] (unary room) (unary room') ∧
      ContinuesPhrases line (expression room) (expression room') := by
  induction room with
  | zero =>
    intro room' h
    refine ⟨⟨⟨(composed_unary _).isLocal, takes_unary (by omega), ?_⟩, (closes_unary _).toSettles⟩,
      ⟨(composed_expression _).isLocal, takes_expression (by omega), ?_⟩,
      (closes_expression _).toSettles⟩
    · exact fun s => .tooDeep rfl rfl
    · exact fun s => .tooDeep rfl rfl
  | succ room ih =>
    intro room' h
    obtain ⟨room', rfl⟩ : ∃ n, room' = n + 1 := ⟨room' - 1, by omega⟩
    obtain ⟨hunary, hexpression⟩ := ih room' (by omega)
    refine ⟨⟨?_, (closes_unary _).toSettles⟩, ?_, (closes_expression _).toSettles⟩
    · exact continues_unaryOf hunary (continues_primaryOf (composed_expression _) hexpression)
    · have htiers := continues_tiers (composed_unary room) (composed_unary room') hunary
        (closes_unary _) 1
      exact continues_assignmentOf
        ⟨htiers, (closes_tiers (composed_unary _) (closes_unary _) 1).toSettles⟩ hexpression

end

/-! ## Statements -/

section

variable {value value' : Parse Expr} {nested nested' declaration declaration' : Parse Stmt}

/-- The step and the one with more room read statements or declarations. -/
abbrev ContinuesSentences (line : Int) (nested nested' : Parse Stmt) : Prop :=
  Completes line NoElse [.operand, .semicolon] nested nested'

/-- An expression without its semicolon is finished by an operand and a semicolon. -/
theorem continues_expressionStatement (hv : ContinuesPhrases line value value') :
    Continues line F [.operand, .semicolon] (expressionStatement value)
      (expressionStatement value') :=
  .bind hv (fun _ => .expecting rfl nofun fun _ => .result _)
    fun _ _ => endsPhrase_filler (.inl rfl)

theorem continues_printStatement (hv : ContinuesPhrases line value value') (l : Int) :
    Continues line F [.operand, .semicolon] (printStatement value l) (printStatement value' l) :=
  .bind hv (fun _ => .expecting rfl nofun fun _ => .result _)
    fun _ _ => endsPhrase_filler (.inl rfl)

/-- A declaration is finished by a name and a semicolon. -/
theorem continues_variableDeclaration (hv : ContinuesPhrases line value value') :
    Continues line F [.name, .semicolon] (variableDeclaration value)
      (variableDeclaration value') := by
  refine .expecting rfl nofun fun name => ?_
  refine .accepting (fun sign => ⟨[.operand] ++ [.semicolon], ?_⟩) ?_ fun rest u _ hu => ?_
  · exact .bind hv (fun e => .expecting rfl nofun fun _ => .result _)
      fun _ _ => endsPhrase_filler (.inl rfl)
  · exact .expecting rfl nofun fun _ => .result _
  · cases hu
    simp [kind]

theorem continues_declarationOf (hv : ContinuesPhrases line value value')
    (hn : ContinuesSentences line nested nested') :
    Continues line NoElse [.operand, .semicolon] (declarationOf value nested)
      (declarationOf value' nested') := by
  refine .accepting (fun _ => ⟨_, continues_variableDeclaration hv⟩) hn.toContinues
    fun rest u _ hu => ?_
  cases hu
  simp [kind]

theorem takes_declarationsAll :
    Takes (Begins .rightBrace) (declarationsAll declaration) [] := by
  intro t rest ht hrest
  rw [List.nil_append] at ht
  refine ⟨[], t, declarationsAll_of_stop fun u hu => ?_, ht⟩
  obtain ⟨v, vs, rfl, hv⟩ := hrest
  rw [ht] at hu
  cases hu
  exact hv

/-- The declarations of a block are finished one by one. -/
theorem completes_declarationsAll (hc' : Composed declaration') (hd : Consumes declaration)
    (hclose : Closes NoElse declaration') (h : ContinuesSentences line declaration declaration') :
    Completes line (Begins .rightBrace) [] (declarationsAll declaration)
      (declarationsAll declaration') := by
  have hsettles := settles_declarationsAll hc' hclose
  refine ⟨⟨hsettles.isLocal, takes_declarationsAll, fun s => ?_⟩, hsettles⟩
  induction hn : s.cursor.rest.length using Nat.strongRecOn generalizing s with
  | ind n ih =>
    by_cases hstop : ∀ t, s.cursor.rest.head? = some t → t.kind = .rightBrace
    · exact .result (declarationsAll_of_stop hstop) (declarationsAll_of_stop hstop)
    · simp only [Classical.not_forall] at hstop
      obtain ⟨u, hu, hk⟩ := hstop
      have hgo : ∀ t : ParseState, t.cursor.rest.head? = s.cursor.rest.head? →
          declarationsAll declaration' t =
            (do
              let d ← declaration'
              let later ← declarationsAll declaration'
              return d :: later) t := by
        intro t ht
        obtain ⟨ts, ht⟩ := List.head?_eq_some_iff.mp (ht.trans hu)
        exact declarationsAll_of_go hclose.consumes ht hk
      obtain ⟨us, hr⟩ := List.head?_eq_some_iff.mp hu
      refine .starting [] (declarationsAll_of_go hd hr hk) hgo ?_ takes_declarationsAll
      refine .bind [] h.settles (fun d => hsettles.isLocal.bind fun _ => .pure _)
        (h.continuesAt s) (fun d s₁ h₁ => ?_) (fun d => ?_) fun rest h => h.noElse (by decide)
      · have hlt := hd s d s₁ h₁
        exact .bind [] hsettles (fun _ => .pure _) (ih _ (by omega) s₁ rfl)
          (fun later s₂ _ => .result rfl rfl) (fun _ => .result _) fun _ h => h
      · exact takes_declarationsAll.bind (fun _ => .result _) fun _ h => h

/-- A block is finished by its closing brace. -/
theorem continues_blockOf (hc' : Composed declaration') (hd : Consumes declaration)
    (hclose : Closes NoElse declaration') (h : ContinuesSentences line declaration declaration') :
    Continues line F [.rightBrace] (blockOf declaration) (blockOf declaration') := by
  rw [blockOf_eq, blockOf_eq]
  show Continues line F ([] ++ [.rightBrace]) _ _
  exact .bind (completes_declarationsAll hc' hd hclose h)
    (fun _ => .expecting rfl nofun fun _ => .result _) fun rest _ => ⟨_, rest, rfl, rfl⟩

/-- An optional clause is finished by an operand. -/
theorem completes_optional {kind : TokenKind} (hv : ContinuesPhrases line value value')
    (hclose : Closes EndsPhrase value') (hkind : kind = .semicolon ∨ kind = .rightParen) :
    Completes line (Begins kind) [.operand] (optional value kind) (optional value' kind) := by
  have hsettles := settles_optional hclose hkind
  have hsome : Continues line (Begins kind) [.operand] (value >>= fun e => pure (some e))
      (value' >>= fun e => pure (some e)) :=
    .ending hv (fun _ => .result _) fun rest h => h.endsPhrase hkind
  have htakes : Takes (Begins kind) (optional value' kind) (tokens line [.operand]) := by
    intro t rest ht hrest
    have hother : ¬ ∃ u, t.cursor.rest.head? = some u ∧ u.kind = kind := by
      rintro ⟨u, hu, hk⟩
      rw [ht] at hu
      cases hu
      rcases hkind with rfl | rfl <;> cases hk
    rw [optional_of_other hother]
    exact hsome.takes t rest ht hrest
  refine ⟨⟨hsettles.isLocal, htakes, fun s => ?_⟩, hsettles⟩
  by_cases hk : ∃ u, s.cursor.rest.head? = some u ∧ u.kind = kind
  · exact .result (optional_of_kind hk) (optional_of_kind hk)
  · refine .starting _ (optional_of_other hk) (fun t ht => optional_of_other ?_)
      (hsome.continuesAt s) htakes
    rwa [ht]

theorem completes_firstClause (hv : ContinuesPhrases line value value') (hc : Composed value') :
    Completes line F [.operand, .semicolon] (firstClause value) (firstClause value') := by
  refine ⟨?_, settles_firstClause hc⟩
  refine .accepting (fun _ => ⟨[], .result _⟩) ?_ fun rest u _ hu => ?_
  · refine .accepting (fun _ => ⟨[.name, .semicolon], ?_⟩) ?_ fun rest u _ hu => ?_
    · refine .ending (G := Anything) ⟨continues_variableDeclaration hv, ?_⟩ (fun _ => .result _)
        fun _ _ => True.intro
      exact (closes_variableDeclaration hc).toSettles
    · refine .ending (G := Anything) ⟨continues_expressionStatement hv, ?_⟩ (fun _ => .result _)
        fun _ _ => True.intro
      exact (closes_expressionStatement hc).toSettles
    · cases hu
      simp [kind]
  · cases hu
    simp [kind]

/-- The clauses of a loop are finished in the order in which they are read. -/
theorem continues_forClauses (hv : ContinuesPhrases line value value') (hc : Composed value')
    (hclose : Closes EndsPhrase value') :
    Continues line F
      (.leftParen :: ([.operand, .semicolon] ++ ([.operand] ++ (.semicolon ::
        ([.operand] ++ [.rightParen]))))) (forClauses value) (forClauses value') := by
  refine .expecting rfl nofun fun _ => ?_
  refine .bind (G := Anything) (completes_firstClause hv hc) (fun first => ?_) fun _ _ => True.intro
  refine .bind (completes_optional hv hclose (.inl rfl)) (fun condition => ?_)
    fun rest _ => ⟨_, _, rfl, rfl⟩
  refine .expecting rfl nofun fun _ => ?_
  refine .bind (completes_optional hv hclose (.inr rfl)) (fun step => ?_)
    fun rest _ => ⟨_, _, rfl, rfl⟩
  exact .expecting rfl nofun fun _ => .result _

theorem continues_forLoop (hv : ContinuesPhrases line value value') (hc : Composed value')
    (hclose : Closes EndsPhrase value') (hn : ContinuesSentences line nested nested') (l : Int) :
    ∃ vs, Continues line NoElse vs (forLoop value nested l) (forLoop value' nested' l) := by
  have hclauses : Completes line Anything _ (forClauses value) (forClauses value') :=
    ⟨continues_forClauses hv hc hclose, (closes_forClauses hc).toSettles⟩
  refine ⟨_, .bind hclauses (fun clauses => .ending hn (fun body => .result _) fun _ h => h)
    fun _ _ => True.intro⟩

/-- A conditional is finished by a condition and a statement. -/
theorem continues_conditional (hv : ContinuesPhrases line value value')
    (hn : ContinuesSentences line nested nested') (l : Int) :
    Continues line NoElse (.leftParen :: ([.operand] ++ [.rightParen, .operand, .semicolon]))
      (conditional value nested l) (conditional value' nested' l) := by
  refine .expecting rfl nofun fun _ => .bind hv (fun c => .expecting rfl nofun fun _ => ?_)
    fun _ _ => endsPhrase_filler (.inr rfl)
  refine .ending hn (fun body => ?_) fun _ h => h
  refine .accepting (fun _ => ⟨[.operand, .semicolon], ?_⟩) (.result _) fun rest u h hu => ?_
  · exact .ending hn (fun _ => .result _) fun _ h => h
  · simpa using h u hu

theorem continues_whileLoop (hv : ContinuesPhrases line value value')
    (hn : ContinuesSentences line nested nested') (l : Int) :
    Continues line NoElse (.leftParen :: ([.operand] ++ [.rightParen, .operand, .semicolon]))
      (whileLoop value nested l) (whileLoop value' nested' l) := by
  refine .expecting rfl nofun fun _ => .bind hv (fun c => .expecting rfl nofun fun _ => ?_)
    fun _ _ => endsPhrase_filler (.inr rfl)
  exact .ending hn (fun _ => .result _) fun _ h => h

/-- Whatever a statement begins with, some tokens finish it. -/
theorem continues_statementOf (hv : ContinuesPhrases line value value') (hc : Composed value)
    (hc' : Composed value') (hclose : Closes EndsPhrase value')
    (hn : ContinuesSentences line nested nested') (hs : Composed nested') (hd : Consumes nested)
    (hclose' : Closes NoElse nested') :
    Continues line NoElse [.operand, .semicolon] (statementOf value nested)
      (statementOf value' nested') := by
  have hdeclaration := closes_declarationOf hc' hclose'
  have hblock : Completes line Anything [.rightBrace] (blockOf (declarationOf value nested))
      (blockOf (declarationOf value' nested')) := by
    refine ⟨continues_blockOf (composed_declarationOf hc' hs)
      (consumes_declarationOf hc hd) hdeclaration ⟨continues_declarationOf hv hn, ?_⟩, ?_⟩
    · exact hdeclaration.toSettles
    · exact (closes_blockOf (composed_declarationOf hc' hs) hdeclaration.consumes).toSettles
  refine .accepting (fun t => ?_) (continues_expressionStatement hv) fun rest u _ hu => ?_
  · dsimp only
    split
    · exact continues_forLoop hv hc' hclose hn _
    · exact ⟨_, continues_conditional hv hn _⟩
    · exact ⟨_, continues_printStatement hv _⟩
    · exact ⟨_, continues_whileLoop hv hn _⟩
    · exact ⟨_, .ending hblock (fun _ => .result _) fun _ _ => True.intro⟩
  · cases hu
    simp [kind]

end

theorem takes_expressionStatement {value : Parse Expr}
    (hv : Takes EndsPhrase value (tokens line [.operand])) :
    Takes F (expressionStatement value) (tokens line [.operand, .semicolon]) := by
  show Takes F _ (tokens line [.operand] ++ (tokens line [.semicolon] ++ []))
  refine hv.bind (fun e => ?_) fun _ _ => endsPhrase_filler (.inl rfl)
  exact Takes.bind (G := Anything) (.expect rfl) (fun _ => .result _) fun _ _ => True.intro

theorem takes_statement {room : Nat} (h : 3 ≤ room) :
    Takes F (statement room) (tokens line [.operand, .semicolon]) := by
  obtain ⟨room, rfl⟩ : ∃ n, room = n + 1 := ⟨room - 1, by omega⟩
  refine Takes.accepting (takes_expressionStatement (takes_expression (by omega)))
    fun rest u _ hu => ?_
  cases hu
  simp [kind]

/-- Statements can be finished with three more levels of nesting. -/
theorem completes_statement (room : Nat) : ∀ room', room + 3 ≤ room' →
    ContinuesSentences line (statement room) (statement room') := by
  induction room with
  | zero =>
    intro room' h
    refine ⟨⟨(composed_statement _).isLocal, takes_statement (by omega), ?_⟩,
      (closes_statement _).toSettles⟩
    exact fun s => .tooDeep rfl rfl
  | succ room ih =>
    intro room' h
    obtain ⟨room', rfl⟩ : ∃ n, room' = n + 1 := ⟨room' - 1, by omega⟩
    refine ⟨?_, (closes_statement _).toSettles⟩
    exact continues_statementOf (completes_phrases room room' (by omega)).2
      (composed_expression _) (composed_expression _) (closes_expression _) (ih room' (by omega))
      (composed_statement _) (consumes_statement _) (closes_statement _)

/-- With a little more room, every declaration that was begun can be finished. -/
theorem completes_declaration (line : Int) {room room' : Nat} (h : room + 3 ≤ room') :
    ContinuesSentences line (declaration room) (declaration room') :=
  ⟨continues_declarationOf (completes_phrases room room' (by omega)).2
    (completes_statement room room' h), (closes_declaration room').toSettles⟩

end Parse

end LoxScript
