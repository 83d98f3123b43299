import LoxScript.Proofs.Grammar.Concatenation

/-!
# Balanced braces

Braces stand for nothing but the beginning and the end of a block. So whenever a declaration is read,
whatever errors are noted on the way, the braces among its tokens are balanced
(`Parse.balances_declaration`), and so are those of a program of which no declaration is dropped
(`Parse.balanced_of_kept`). The parts of such a program can be told by counting: a beginning of it
that leaves braces open is followed by closing ones that have no counterpart in the rest.
-/

namespace LoxScript

open ParseState

/-! ## Counting braces -/

/-- The kinds that are counted. -/
def TokenKind.isBrace (k : TokenKind) : Bool := k == .leftBrace || k == .rightBrace

/-- The number of braces that are open behind a token, if `n` are open in front of it. A brace that
was not opened cannot be closed. -/
def Token.nest (t : Token) (n : Nat) : Option Nat :=
  match t.kind with
  | .leftBrace => some (n + 1)
  | .rightBrace => if n = 0 then none else some (n - 1)
  | _ => some n

/-- The number of braces that are open behind the tokens, if `n` are open in front of them. -/
def openBraces (n : Nat) : List Token → Option Nat
  | [] => some n
  | t :: ts => (t.nest n).bind fun m => openBraces m ts

/-- Every brace among the tokens has its counterpart among them. -/
def Balanced (ts : List Token) : Prop := openBraces 0 ts = some 0

section

variable {n m : Nat} {t : Token} {ts us vs : List Token}

theorem Token.nest_of_plain (h : t.kind.isBrace = false) (n : Nat) : t.nest n = some n := by
  unfold nest
  split
  · next hk => simp [hk, TokenKind.isBrace] at h
  · next hk => simp [hk, TokenKind.isBrace] at h
  · rfl

/-- Braces are counted from left to right, through one list and then through the other. -/
theorem openBraces_append (n : Nat) (us vs : List Token) :
    openBraces n (us ++ vs) = (openBraces n us).bind fun m => openBraces m vs := by
  induction us generalizing n with
  | nil => rfl
  | cons u us ih =>
    rw [List.cons_append, openBraces, openBraces, Option.bind_assoc]
    congr 1
    funext m
    exact ih m

/-- Braces that are open all the time make no difference. -/
theorem openBraces_add (h : openBraces n ts = some m) (k : Nat) :
    openBraces (n + k) ts = some (m + k) := by
  induction ts generalizing n with
  | nil =>
    cases h
    rfl
  | cons t ts ih =>
    obtain ⟨l, hl, hlater⟩ := Option.bind_eq_some_iff.mp h
    have hnest : t.nest (n + k) = some (l + k) := by
      unfold Token.nest at hl ⊢
      split at hl
      · cases hl
        simp
        omega
      · split at hl
        · cases hl
        · cases hl
          rw [if_neg (by omega)]
          congr 1
          omega
      · cases hl
        rfl
    rw [openBraces, hnest]
    exact ih hlater

namespace Balanced

theorem nil : Balanced [] := rfl

theorem single (h : t.kind.isBrace = false) : Balanced [t] := by
  simp [Balanced, openBraces, Token.nest_of_plain h]

/-- Two balanced lists in a row are balanced. -/
theorem append (hus : Balanced us) (hvs : Balanced vs) : Balanced (us ++ vs) := by
  unfold Balanced at *
  rw [openBraces_append, hus]
  exact hvs

/-- A balanced list leaves as many braces open as were open in front of it. -/
theorem openBraces (h : Balanced ts) (n : Nat) : openBraces n ts = some n := by
  have hadd := openBraces_add h n
  rwa [Nat.zero_add] at hadd

end Balanced

end

/-- The tokens begin with an opening brace, which is closed by the last one. -/
def Enclosed (ts : List Token) : Prop :=
  ∃ left inner right, ts = left :: inner ++ [right] ∧ left.kind = .leftBrace ∧
    right.kind = .rightBrace ∧ Balanced inner

namespace Enclosed

variable {ts us vs : List Token}

theorem ne_nil (h : Enclosed ts) : ts ≠ [] := by
  obtain ⟨left, inner, right, rfl, -⟩ := h
  exact List.cons_ne_nil _ _

/-- Between the first and the last token there is a brace open. -/
theorem open_between (h : Enclosed (us ++ vs)) (hus : us ≠ []) (hvs : vs ≠ []) :
    ∃ n, openBraces 0 us = some (n + 1) ∧ openBraces (n + 1) vs = some 0 := by
  obtain ⟨left, inner, right, hts, hl, hr, hinner⟩ := h
  obtain ⟨u, us, rfl⟩ := List.exists_cons_of_ne_nil hus
  obtain ⟨vs, v, rfl⟩ := (List.eq_nil_or_concat vs).resolve_left hvs
  rw [List.concat_eq_append] at hts ⊢
  obtain ⟨rfl, htail⟩ := List.cons.inj hts
  have htail : us ++ vs ++ [v] = inner ++ [right] := by rwa [List.append_assoc]
  obtain ⟨hparts, hlast⟩ := List.append_inj' htail rfl
  obtain rfl : v = right := List.singleton_inj.mp hlast
  rw [← hparts, Balanced, openBraces_append] at hinner
  obtain ⟨n, hn, hlater⟩ := Option.bind_eq_some_iff.mp hinner
  refine ⟨n, ?_, ?_⟩
  · have hopen : u.nest 0 = some 1 := by simp [Token.nest, hl]
    rw [openBraces, hopen]
    have hadd := openBraces_add hn 1
    rwa [Nat.zero_add] at hadd
  · have hclose : v.nest 1 = some 0 := by simp [Token.nest, hr]
    rw [openBraces_append, openBraces_add hlater 1]
    simp [openBraces, hclose]

/-- What is enclosed ends with a closing brace. -/
theorem closes {t : Token} (h : Enclosed (us ++ [t])) : t.kind = .rightBrace := by
  obtain ⟨left, inner, right, hts, -, hr, -⟩ := h
  obtain ⟨-, hlast⟩ := List.append_inj' hts rfl
  rwa [List.singleton_inj.mp hlast]

/-- With both of its braces, a block is balanced. -/
theorem balanced (h : Enclosed ts) : Balanced ts := by
  obtain ⟨left, inner, right, rfl, hl, hr, hinner⟩ := h
  have hopen : left.nest 0 = some 1 := by simp [Token.nest, hl]
  have hclose : right.nest 1 = some 0 := by simp [Token.nest, hr]
  unfold Balanced
  rw [openBraces_append, openBraces, hopen]
  simp [hinner.openBraces 1, openBraces, hclose]

/-- The tokens in between are not balanced with any that follow the last one. -/
theorem not_balanced (h : Enclosed (us ++ vs)) (hus : us ≠ []) (hvs : vs ≠ []) (ws : List Token) :
    ¬ Balanced (vs ++ ws) := by
  obtain ⟨n, -, hlater⟩ := h.open_between hus hvs
  intro hbalanced
  rw [Balanced, openBraces_append] at hbalanced
  obtain ⟨m, hm, -⟩ := Option.bind_eq_some_iff.mp hbalanced
  have hadd := openBraces_add hm (n + 1)
  rw [Nat.zero_add, hlater] at hadd
  cases hadd

/-- No beginning is balanced. -/
theorem not_balanced_beginning (h : Enclosed (us ++ vs)) (hus : us ≠ []) (hvs : vs ≠ []) :
    ¬ Balanced us := by
  obtain ⟨n, hn, -⟩ := h.open_between hus hvs
  intro hbalanced
  rw [Balanced, hn] at hbalanced
  cases hbalanced

end Enclosed

/-! ## What is read is balanced -/

namespace Parse

variable {α β : Type}

/-- If the step has a result at this state, then the braces among the tokens that it passes are
balanced. -/
def BalancesAt (p : Parse α) (s : ParseState) : Prop :=
  ∀ a s₁, p s = .ok a s₁ → ∃ us es, s.Leads us es s₁ ∧ Balanced us

/-- Every result is behind balanced tokens. -/
def Balances (p : Parse α) : Prop := ∀ s, BalancesAt p s

/-- A token that is no brace may be passed at any time. -/
theorem BalancesAt.skipping {s : ParseState} {u : Token} {us : List Token} {f : Unit → Parse β}
    (h : Balances (f ())) (hr : s.cursor.rest = u :: us) (hu : u.kind.isBrace = false) :
    BalancesAt (skip >>= f) s := by
  intro b s₁ h'
  obtain ⟨vs, es, hs, hvs⟩ := h s.advance b s₁ h'
  exact ⟨_, _, (leads_advance hr).trans hs, (Balanced.single hu).append hvs⟩

namespace Balances

variable {p : Parse α} {f : α → Parse β}

/-- A step that stays where it is. -/
theorem still (h : ∀ s a s₁, p s = .ok a s₁ → ∃ es, s.Leads [] es s₁) : Balances p := by
  intro s a s₁ h'
  obtain ⟨es, hs⟩ := h s a s₁ h'
  exact ⟨[], es, hs, .nil⟩

theorem pure (a : α) : Balances (pure a : Parse α) := still fun s _ _ h => by
  cases h
  exact ⟨[], .refl s⟩

theorem fail (cause : SyntaxCause) : Balances (fail cause : Parse α) := by
  intro s a s₁ h
  cases h

theorem note (e : SyntaxError) : Balances (note e) := still fun s _ _ h => by
  cases h
  exact ⟨[e], rfl, rfl⟩

theorem remaining : Balances remaining := still fun s _ _ h => by
  cases h
  exact ⟨[], .refl s⟩

theorem bind (hp : Balances p) (hf : ∀ a, Balances (f a)) : Balances (p >>= f) := by
  intro s b s₂ h
  obtain ⟨a, s₁, h₁, h₂⟩ := bind_eq_ok.mp h
  obtain ⟨us, es, hs, hus⟩ := hp s a s₁ h₁
  obtain ⟨vs, fs, hs', hvs⟩ := hf a s₁ b s₂ h₂
  exact ⟨_, _, hs.trans hs', hus.append hvs⟩

/-- Whichever token comes, what follows has to be balanced. -/
theorem looking {f : Option Token → Parse β} (hnone : Balances (f none))
    (hsome : ∀ u us s, s.cursor.rest = u :: us → BalancesAt (f (some u)) s) :
    Balances (look >>= f) := by
  intro s b s₁ h
  have hlook : (look >>= f) s = f s.cursor.rest.head? s := rfl
  rw [hlook] at h
  cases hr : s.cursor.rest with
  | nil => exact hnone s b s₁ (by rwa [hr] at h)
  | cons u us => exact hsome u us s hr b s₁ (by rwa [hr] at h)

theorem accept {kinds : List TokenKind} (hkinds : ∀ k ∈ kinds, k.isBrace = false) :
    Balances (accept kinds) := by
  rw [accept_eq]
  refine .looking (.pure _) fun u us s hr => ?_
  dsimp only
  split
  · next hk => exact BalancesAt.skipping (.pure _) hr (hkinds _ (by simpa using hk))
  · exact Balances.pure _ s

theorem expect {kind : TokenKind} (hkind : kind.isBrace = false) (cause : SyntaxCause) :
    Balances (expect kind cause) := by
  rw [expect_eq]
  refine .looking (.fail _) fun u us s hr => ?_
  dsimp only
  split
  · next hk => exact BalancesAt.skipping (.pure _) hr (hk ▸ hkind)
  · exact Balances.fail _ s

end Balances

/-! ## Expressions -/

section

variable {operand inner nested primary target value : Parse Expr}

theorem balances_primaryOf (hi : Balances inner) : Balances (primaryOf inner) := by
  rw [primaryOf_eq]
  refine .looking (.fail _) fun u us s hr => ?_
  dsimp only
  split
  · next e he =>
    refine BalancesAt.skipping (.pure _) hr ?_
    cases hk : u.kind <;> simp [Expr.ofToken?, hk] at he <;> rfl
  · split
    · next hk =>
      refine BalancesAt.skipping (hi.bind fun e => ?_) hr (by rw [hk]; rfl)
      exact (Balances.expect rfl _).bind fun _ => .pure _
    · exact Balances.fail _ s

theorem balances_unaryOf (hn : Balances nested) (hp : Balances primary) :
    Balances (unaryOf nested primary) := by
  refine (Balances.accept (by decide)).bind fun o => ?_
  cases o with
  | none => exact hp
  | some op => exact hn.bind fun e => .pure _

theorem balances_climb (ho : Balances operand) (fuel least : Nat) (left : Expr) :
    Balances (climb operand fuel least left) := by
  induction fuel generalizing least left with
  | zero => exact .pure left
  | succ fuel ih =>
    rw [climb_succ]
    refine .looking (.pure left) fun u us s hr => ?_
    dsimp only
    split
    · exact Balances.pure left s
    · next tier htier =>
      split
      · exact Balances.pure left s
      · refine BalancesAt.skipping (ho.bind fun first => (ih _ first).bind fun right => ih _ _) hr ?_
        cases hk : u.kind <;> simp [Tier.of?, hk] at htier <;> rfl

theorem balances_tiers (ho : Balances operand) (least : Nat) : Balances (tiers operand least) :=
  ho.bind fun left => Balances.remaining.bind fun fuel => balances_climb ho fuel least left

theorem balances_assignmentOf (ht : Balances target) (hv : Balances value) :
    Balances (assignmentOf target value) := by
  refine ht.bind fun left => (Balances.accept (by decide)).bind fun o => ?_
  cases o with
  | none => exact .pure _
  | some sign =>
    refine hv.bind fun e => ?_
    split
    · exact .pure _
    · exact (Balances.note _).bind fun _ => .pure _

mutual

theorem balances_unary (room : Nat) : Balances (unary room) := by
  cases room with
  | zero => exact .fail _
  | succ room =>
    exact balances_unaryOf (balances_unary room) (balances_primaryOf (balances_expression room))

theorem balances_expression (room : Nat) : Balances (expression room) := by
  cases room with
  | zero => exact .fail _
  | succ room =>
    exact balances_assignmentOf (balances_tiers (balances_unary room) 1) (balances_expression room)

end

end

/-! ## Statements -/

section

variable {value : Parse Expr} {nested declaration statement : Parse Stmt}

theorem balances_expressionStatement (hv : Balances value) : Balances (expressionStatement value) :=
  hv.bind fun _ => (Balances.expect rfl _).bind fun _ => .pure _

theorem balances_variableDeclaration (hv : Balances value) :
    Balances (variableDeclaration value) := by
  refine (Balances.expect rfl _).bind fun name => (Balances.accept (by decide)).bind fun o => ?_
  have hend (first : Option Expr) : Balances (do
      let _ ← expect .semicolon (.expectSemicolon .declaration)
      return Stmt.declare name first name.line) :=
    (Balances.expect rfl _).bind fun _ => .pure _
  cases o with
  | none => exact (Balances.pure none).bind hend
  | some _ => exact hv.bind fun e => (Balances.pure (some e)).bind hend

theorem balances_declarationOf (hv : Balances value) (hs : Balances statement) :
    Balances (declarationOf value statement) := by
  refine (Balances.accept (by decide)).bind fun o => ?_
  cases o with
  | none => exact hs
  | some _ => exact balances_variableDeclaration hv

theorem balances_declarations (hd : Balances declaration) (fuel : Nat) :
    Balances (declarations declaration fuel) := by
  induction fuel with
  | zero => exact .pure _
  | succ fuel ih =>
    refine .looking (.pure _) fun u us s hr => ?_
    dsimp only
    split
    · exact Balances.pure _ s
    · exact hd.bind (fun d => ih.bind fun later => .pure _) s

/-- The rest of a block is balanced but for the brace that closes it. -/
theorem closes_block (hd : Balances declaration) {s s₁ : ParseState} {body : List Stmt}
    (h : blockOf declaration s = .ok body s₁) :
    ∃ us right es, s.Leads (us ++ [right]) es s₁ ∧ Balanced us ∧ right.kind = .rightBrace := by
  have hbody : Balances (remaining >>= declarations declaration) :=
    Balances.remaining.bind fun fuel => balances_declarations hd fuel
  have hblock : blockOf declaration = (remaining >>= declarations declaration) >>= fun body =>
      expect .rightBrace .expectBlockEnd >>= fun _ => Pure.pure body := by
    rw [bind_assoc]
    rfl
  rw [hblock] at h
  obtain ⟨body', s₂, h₂, h⟩ := bind_eq_ok.mp h
  obtain ⟨us, es, hs, hus⟩ := hbody s body' s₂ h₂
  rcases next_cases (·.kind = .rightBrace) s₂.cursor.rest with ⟨right, vs, hr, hk⟩ | hother
  · rw [bind_of_ok (expect_of_kind hr hk)] at h
    cases h
    exact ⟨us, right, _, hs.trans (leads_advance hr), hus, hk⟩
  · rw [bind_of_error (expect_of_other hother)] at h
    cases h

theorem balances_conditional (hv : Balances value) (hn : Balances nested) (line : Int) :
    Balances (conditional value nested line) := by
  refine (Balances.expect rfl _).bind fun _ => hv.bind fun c => (Balances.expect rfl _).bind fun _ =>
    hn.bind fun body => (Balances.accept (by decide)).bind fun o => ?_
  cases o with
  | none => exact .pure _
  | some _ => exact hn.bind fun other => .pure _

theorem balances_whileLoop (hv : Balances value) (hn : Balances nested) (line : Int) :
    Balances (whileLoop value nested line) :=
  (Balances.expect rfl _).bind fun _ => hv.bind fun _ => (Balances.expect rfl _).bind fun _ =>
    hn.bind fun _ => .pure _

theorem balances_firstClause (hv : Balances value) : Balances (firstClause value) := by
  refine (Balances.accept (by decide)).bind fun o => ?_
  cases o with
  | some _ => exact .pure _
  | none =>
    refine (Balances.accept (by decide)).bind fun o => ?_
    cases o with
    | some _ => exact (balances_variableDeclaration hv).bind fun _ => .pure _
    | none => exact (balances_expressionStatement hv).bind fun _ => .pure _

theorem balances_optional (hv : Balances value) (kind : TokenKind) :
    Balances (optional value kind) := by
  have hvalue : Balances (value >>= fun e => Pure.pure (some e)) := hv.bind fun e => .pure _
  refine .looking hvalue fun u us s hr => ?_
  dsimp only
  split
  · exact Balances.pure _ s
  · exact hvalue s

theorem balances_forLoop (hv : Balances value) (hn : Balances nested) (line : Int) :
    Balances (forLoop value nested line) := by
  have hclauses : Balances (forClauses value) :=
    (Balances.expect rfl _).bind fun _ => (balances_firstClause hv).bind fun _ =>
      (balances_optional hv _).bind fun _ => (Balances.expect rfl _).bind fun _ =>
        (balances_optional hv _).bind fun _ => (Balances.expect rfl _).bind fun _ => .pure _
  exact hclauses.bind fun _ => hn.bind fun _ => .pure _

theorem balances_statementOf (hv : Balances value) (hn : Balances nested) :
    Balances (statementOf value nested) := by
  intro s d s₁ h
  rcases next_cases (·.kind ∈ [TokenKind.forWord, .ifWord, .printWord, .whileWord, .leftBrace])
    s.cursor.rest with ⟨u, us, hr, hk⟩ | hother
  · have haccept := accept_of_mem hr hk
    have hword {p : Parse Stmt} (hp : Balances p) (hu : u.kind.isBrace = false)
        (h : p s.advance = .ok d s₁) : ∃ us es, s.Leads us es s₁ ∧ Balanced us := by
      obtain ⟨vs, es, hs, hvs⟩ := hp s.advance d s₁ h
      exact ⟨_, _, (leads_advance hr).trans hs, (Balanced.single hu).append hvs⟩
    rw [statementOf, bind_of_ok haccept] at h
    simp only [List.mem_cons, List.not_mem_nil, or_false] at hk
    rcases hk with hk | hk | hk | hk | hk <;> simp only [hk] at h
    · exact hword (balances_forLoop hv hn _) (by rw [hk]; rfl) h
    · exact hword (balances_conditional hv hn _) (by rw [hk]; rfl) h
    · exact hword (hv.bind fun _ => (Balances.expect rfl _).bind fun _ => .pure _) (by rw [hk]; rfl) h
    · exact hword (balances_whileLoop hv hn _) (by rw [hk]; rfl) h
    · obtain ⟨body, s₂, hbody, hlast⟩ := bind_eq_ok.mp h
      cases hlast
      obtain ⟨vs, right, es, hs, hvs, hright⟩ := closes_block (balances_declarationOf hv hn) hbody
      have henclosed : Enclosed (u :: vs ++ [right]) := ⟨u, vs, right, rfl, hk, hright, hvs⟩
      exact ⟨_, _, (leads_advance hr).trans hs, henclosed.balanced⟩
  · rw [statementOf, bind_of_ok (accept_of_other hother)] at h
    exact balances_expressionStatement hv s d s₁ h

/-- A statement that is read closes all braces that it opens, and no others. -/
theorem balances_statement (room : Nat) : Balances (Parse.statement room) := by
  induction room with
  | zero => exact .fail _
  | succ room ih => exact balances_statementOf (balances_expression room) ih

theorem balances_declaration (room : Nat) : Balances (Parse.declaration room) :=
  balances_declarationOf (balances_expression room) (balances_statement room)

/-- If no declaration is dropped, then all of the tokens are balanced. -/
theorem balanced_of_kept {room : Nat} {s : ParseState}
    (h : (program room s).2.panicked = false) : Balanced s.cursor.rest := by
  induction s using program_induction room with
  | finished s hr =>
    rw [hr]
    exact .nil
  | read s d s₁ hr hd ih =>
    rw [program_of_ok hr hd] at h
    obtain ⟨us, es, hs, hus⟩ := balances_declaration room s d s₁ hd
    rw [hs.1]
    exact hus.append (ih h)
  | dropped s e s₁ hr hd ih =>
    rw [program_of_error hr hd, panicked_program rfl] at h
    cases h

end

end Parse

end LoxScript
