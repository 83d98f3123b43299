import LoxScript.Proofs.Grammar.Balance

/-!
# Boundaries between statements

Behind an error reading goes on at the next boundary, which is behind a semicolon or in front of a
word that starts a statement (`Cursor.resume`). Boundaries are found in the flat list of tokens,
whatever is nested how. In a program without errors that does not begin at a boundary the next one
is where its first declaration ends, or further behind; unless it is within a block, and then what
follows is not balanced. So a program that is entered at its next boundary either has an error or
has lost a declaration (`Declarations.of_resume`).
-/

namespace LoxScript

open ParseState

/-! ## The next boundary -/

namespace Cursor

variable {t u : Token} {us vs : List Token}

/-- A boundary lies behind a semicolon and in front of a word that starts a statement. -/
theorem resume_cons_cons (t u : Token) (us : List Token) :
    resume (t :: u :: us) =
      if (t.kind == .semicolon || u.kind.startsStatement) = true then u :: us
      else resume (u :: us) := by
  have hskip := rest_synchronize ⟨[t], u :: us, t, t⟩
  change (skip [u, t] us).2 = resume (u :: us) at hskip
  rw [← hskip]
  change (skip [t] (u :: us)).2 = _
  rw [skip_cons]
  split <;> rfl

/-- Behind a semicolon, nothing is passed. -/
theorem resume_of_semicolon (ht : t.kind = .semicolon) (us : List Token) :
    resume (t :: us) = us := by
  cases us with
  | nil => rfl
  | cons u us => rw [resume_cons_cons, if_pos (by simp [ht])]

/-- The statement that follows is not skipped if a word tells that it starts. -/
theorem resume_of_word (t : Token) (hus : ∀ u, us.head? = some u → u.kind.startsStatement = true) :
    resume (t :: us) = us := by
  cases us with
  | nil => rfl
  | cons u us => rw [resume_cons_cons, if_pos (by simp [hus u rfl])]

/-- Within a statement, tokens are passed one by one. -/
theorem resume_of_inside (ht : t.kind ≠ .semicolon) (hus : us.head? = some u)
    (hu : u.kind.startsStatement = false) : resume (t :: us) = resume us := by
  obtain ⟨us, rfl⟩ := List.head?_eq_some_iff.mp hus
  rw [resume_cons_cons, if_neg (by simp [ht, hu])]

/-- At least one token is passed, and what is left is a part of the list. -/
theorem exists_resume (hus : us ≠ []) : ∃ vs, vs ≠ [] ∧ us = vs ++ resume us := by
  induction us with
  | nil => exact absurd rfl hus
  | cons t us ih =>
    cases us with
    | nil => exact ⟨[t], List.cons_ne_nil _ _, rfl⟩
    | cons u us =>
      rw [resume_cons_cons]
      split
      · exact ⟨[t], List.cons_ne_nil _ _, rfl⟩
      · obtain ⟨vs, -, hvs⟩ := ih (List.cons_ne_nil _ _)
        exact ⟨t :: vs, List.cons_ne_nil _ _, congrArg (t :: ·) hvs⟩

/-- No token comes that was not in the list. -/
theorem mem_of_mem_resume (h : t ∈ resume us) : t ∈ us := by
  by_cases hus : us = []
  · rwa [hus] at h ⊢
  · obtain ⟨vs, -, hsplit⟩ := exists_resume hus
    rw [hsplit]
    exact List.mem_append_right vs h

/-- A boundary is found before what follows the tokens is looked at. -/
theorem resume_append (h : resume us ≠ []) (vs : List Token) :
    resume (us ++ vs) = resume us ++ vs := by
  induction us with
  | nil => exact absurd rfl h
  | cons t us ih =>
    cases us with
    | nil => exact absurd rfl h
    | cons u us =>
      rw [resume_cons_cons] at h ⊢
      rw [List.cons_append, List.cons_append, resume_cons_cons]
      split
      · rfl
      · next hinside =>
        rw [if_neg hinside] at h
        exact ih h

/-- If there is no boundary among the tokens, then the last of them is where it is looked for
next. -/
theorem resume_append_of_end (h : resume (us ++ [t]) = []) (vs : List Token) :
    resume (us ++ t :: vs) = resume (t :: vs) := by
  induction us with
  | nil => rfl
  | cons u us ih =>
    cases us with
    | nil =>
      rw [List.singleton_append, resume_cons_cons] at h ⊢
      split
      · next hboundary =>
        rw [if_pos hboundary] at h
        cases h
      · rfl
    | cons v us =>
      rw [List.cons_append, List.cons_append, resume_cons_cons] at h ⊢
      split
      · next hboundary =>
        rw [if_pos hboundary] at h
        cases h
      · next hinside =>
        rw [if_neg hinside] at h
        exact ih h

end Cursor

/-! ## Blocks -/

namespace Enclosed

variable {us vs ws : List Token}

/-- A boundary within a block is followed by more closing braces than opening ones. -/
theorem resume_eq_nil (h : Enclosed (us ++ vs)) (hvs : vs ≠ [])
    (hbalanced : Balanced (Cursor.resume (vs ++ ws))) : Cursor.resume vs = [] := by
  by_contra hwithin
  obtain ⟨passed, hpassed, hsplit⟩ := Cursor.exists_resume hvs
  rw [Cursor.resume_append hwithin] at hbalanced
  rw [hsplit, ← List.append_assoc] at h
  exact h.not_balanced (by simp [hpassed]) hwithin ws hbalanced

/-- If there is no boundary in the rest of a block, then it is looked for behind the block; and there
is one right behind it, if a statement starts there with a word that tells. -/
theorem resume_behind (h : Enclosed (us ++ vs)) (hvs : vs ≠ []) (hend : Cursor.resume vs = [])
    (ws : List Token) :
    (∀ t, ws.head? = some t → t.kind.startsStatement = true) ∧ Cursor.resume (vs ++ ws) = ws ∨
      (∃ t, ws.head? = some t ∧ t.kind.startsStatement = false) ∧
        Cursor.resume (vs ++ ws) = Cursor.resume ws := by
  obtain ⟨inner, right, rfl⟩ : ∃ inner right, vs = inner ++ [right] := by
    simpa using (List.eq_nil_or_concat vs).resolve_left hvs
  have hright : right.kind = .rightBrace := by
    rw [← List.append_assoc] at h
    exact h.closes
  rw [List.append_assoc, List.singleton_append, Cursor.resume_append_of_end hend]
  by_cases hword : ∀ t, ws.head? = some t → t.kind.startsStatement = true
  · exact .inl ⟨hword, Cursor.resume_of_word right hword⟩
  · obtain ⟨t, ht, hother⟩ : ∃ t, ws.head? = some t ∧ t.kind.startsStatement = false := by
      simpa using hword
    exact .inr ⟨⟨t, ht, hother⟩, Cursor.resume_of_inside (by simp [hright]) ht hother⟩

end Enclosed

/-! ## Phrases -/

/-- A token that no boundary is next to, whatever its neighbours are. -/
def Token.isInside (t : Token) : Bool := t.kind != .semicolon && !t.kind.startsStatement

/-- No token of an expression is a boundary. -/
theorem Phrase.inside {k : Nat} {ts : List Token} {e : Expr} (h : Phrase k ts e) :
    ∀ t ∈ ts, t.isInside = true := by
  induction h with
  | tighter _ ih => exact ih
  | assignment hn hs _ ih =>
    simp only [List.forall_mem_cons]
    exact ⟨by simp [Token.isInside, hn, TokenKind.startsStatement],
      by simp [Token.isInside, hs, TokenKind.startsStatement], ih⟩
  | @operation tier op _ _ _ _ ht _ _ ihl ihr =>
    have hop : op.isInside = true := by
      cases hk : op.kind <;> simp [Tier.of?, hk] at ht <;>
        simp [Token.isInside, hk, TokenKind.startsStatement]
    simp only [List.forall_mem_append, List.forall_mem_cons]
    exact ⟨ihl, hop, ihr⟩
  | negation ho _ ih =>
    simp only [List.forall_mem_cons]
    refine ⟨?_, ih⟩
    rcases ho with ho | ho <;> simp [Token.isInside, ho, TokenKind.startsStatement]
  | @atom t _ h =>
    have ht : t.isInside = true := by
      cases hk : t.kind <;> simp [Expr.ofToken?, hk] at h <;>
        simp [Token.isInside, hk, TokenKind.startsStatement]
    simpa using ht
  | parentheses hl _ hr ih =>
    simp only [List.forall_mem_append, List.forall_mem_cons]
    exact ⟨⟨by simp [Token.isInside, hl, TokenKind.startsStatement], ih⟩,
      by simp [Token.isInside, hr, TokenKind.startsStatement], by simp⟩

/-- The first boundary behind the beginning of a phrase is behind the semicolon that ends it. -/
theorem Cursor.resume_of_inside_append {us : List Token} {t : Token}
    (hus : ∀ u ∈ us, u.isInside = true) (ht : t.kind = .semicolon) (vs : List Token) :
    resume (us ++ t :: vs) = vs := by
  induction us with
  | nil => exact resume_of_semicolon ht vs
  | cons u us ih =>
    obtain ⟨hu, hus⟩ := List.forall_mem_cons.mp hus
    have hkind : u.kind ≠ .semicolon := by
      intro hk
      simp [Token.isInside, hk] at hu
    obtain ⟨v, hv, hinside⟩ :
        ∃ v, (us ++ t :: vs).head? = some v ∧ v.kind.startsStatement = false := by
      cases us with
      | nil => exact ⟨t, rfl, by rw [ht]; rfl⟩
      | cons v us =>
        have hv := hus v List.mem_cons_self
        exact ⟨v, rfl, by simpa using (Bool.and_eq_true_iff.mp hv).2⟩
    rw [List.cons_append, resume_of_inside hkind hv hinside, ih hus]

/-! ## Programs -/

/-- Tokens that derive statements are read as these, if no construct is too deep. -/
theorem Parse.program_of_declarations {room : Nat} {s : ParseState} {ss : List Stmt}
    (h : Declarations s.cursor.rest ss)
    (hdeep : ∀ e ∈ (program room s).2.noted, e.cause ≠ .tooDeep) :
    program room s = (ss, s.behind s.cursor.rest.length) := by
  have hrest : s.cursor.rest = s.cursor.rest ++ [] := (List.append_nil _).symm
  rcases programOf_of_declarations h hrest (by simp) (Nat.le_refl _) with
    ⟨fuel, -, hread, hread'⟩ | ⟨e, he, hcause⟩
  · rw [programOf_of_end (behind_append hrest)] at hread hread'
    exact Prod.ext (hread.trans (List.append_nil ss)) hread'
  · exact absurd hcause (hdeep e he)

/-- The braces of a program without errors are balanced. -/
theorem Declarations.balanced {ts : List Token} {ss : List Stmt} (h : Declarations ts ss) :
    Balanced ts := by
  obtain ⟨s, rfl, hnoted, hkept⟩ :
      ∃ s : ParseState, s.cursor.rest = ts ∧ s.noted = [] ∧ s.panicked = false :=
    ⟨⟨⟨[], ts, .endAt 1, .endAt 1⟩, [], false⟩, rfl, rfl, rfl⟩
  have hread : Parse.program (2 * s.cursor.rest.length + 3) s = (ss, s.behind s.cursor.rest.length) :=
    Parse.program_of_declarations h fun e he =>
      (Parse.shallow_programOf (Nat.le_refl _) e he).resolve_left (by simp [hnoted])
  have hkept : (Parse.program (2 * s.cursor.rest.length + 3) s).2.panicked = false := by
    rw [hread, panicked_behind, hkept]
  exact Parse.balanced_of_kept hkept

/-- What a declaration is whose first word does not tell that it starts. -/
theorem Declaration.wordless {ts : List Token} {s : Stmt} {t : Token} (h : Declaration ts s)
    (hfirst : ts.head? = some t) (ht : t.kind.startsStatement = false) :
    ExpressionClause ts s ∨ Enclosed ts := by
  have hword {u : Token} (hu : ts.head? = some u) {k : TokenKind} (hk : u.kind = k)
      (hstarts : k.startsStatement = true) : False := by
    obtain rfl : t = u := Option.some.inj (hfirst.symm.trans hu)
    rw [hk, hstarts] at ht
    cases ht
  cases h with
  | variableDeclaration hw _ => exact (hword rfl hw rfl).elim
  | statement h =>
    cases h with
    | expression h => exact .inl h
    | block hl h hr => exact .inr ⟨_, _, _, rfl, hl, hr, h.balanced⟩
    | print hw | ifThen hw | ifElse hw | whileLoop hw | forLoop hw => exact (hword rfl hw rfl).elim

/-- Where a program without errors does not begin at a boundary, what follows the next boundary is a
program that lacks a declaration, unless its braces are not balanced. -/
theorem Declarations.of_resume {ts : List Token} {ss : List Stmt} {t : Token}
    (h : Declarations ts ss) (hfirst : ts.head? = some t) (ht : t.kind.startsStatement = false)
    (hbalanced : Balanced (Cursor.resume ts)) :
    ∃ ss', Declarations (Cursor.resume ts) ss' ∧ ss'.length < ss.length := by
  induction ss generalizing ts t with
  | nil =>
    cases h
    cases hfirst
  | cons s ss ih =>
    cases h with
    | @cons us vs _ _ h hss =>
      have hstart : us.head? = some t := by
        obtain ⟨u, us, rfl, -⟩ := h.starts
        exact hfirst
      rcases h.wordless hstart ht with hclause | henclosed
      · obtain ⟨hphrase, hsemicolon⟩ := hclause
        rw [List.append_assoc, List.singleton_append,
          Cursor.resume_of_inside_append hphrase.inside hsemicolon]
        exact ⟨ss, hss, Nat.lt_succ_self _⟩
      · have hne := henclosed.ne_nil
        have hwhole : Enclosed ([] ++ us) := henclosed
        have hend := hwhole.resume_eq_nil hne hbalanced
        rcases hwhole.resume_behind hne hend vs with
          ⟨-, hresume⟩ | ⟨⟨v, hv, hother⟩, hresume⟩
        · rw [hresume]
          exact ⟨ss, hss, Nat.lt_succ_self _⟩
        · rw [hresume] at hbalanced ⊢
          obtain ⟨ss', hss', hlt⟩ := ih hss hv hother hbalanced
          exact ⟨ss', hss', Nat.lt_succ_of_lt hlt⟩

end LoxScript
