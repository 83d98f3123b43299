import LoxScript.Proofs.Decimal.Written
import LoxScript.Proofs.Grammar.Bracketed
import LoxScript.Proofs.Grammar.Provenance
import LoxScript.Proofs.Lexeme.Spacing
import LoxScript.Proofs.Run.Layout

/-!
# What is displayed can be read back

The bracketed form of a program shows all of it but its lines, as long as there are no texts in it, which
could be mistaken for anything, and no infinite numbers, which look like names: two programs that are
displayed alike are equal up to lines and up to numbers that are written alike (`displayed_alike_iff`).

The brackets determine where each part begins and ends. What is within them is read back by
`Bracketed.toExpr` and `Bracketed.toStmt`: heads and words are lexemes, and the lexeme of a token
determines the token up to its line. The three heads that could also be part of an expression are told
from operators, since `group` is none and `=` is no operator between operands; and literals are told from
names, since the words for values are reserved and a number begins with no letter.
-/

namespace LoxScript

open Decimal

/-! ## Tokens that are shown as they are -/

/-- The value is no infinite number. -/
def Value.isFinite : Value → Bool
  | .number x =>
    match Reading.of x with
    | .finite _ _ => true
    | _ => false
  | _ => true

/-- A token of some source that is no text and no infinite number. -/
structure Token.Plain (t : Token) : Prop where
  scanned : ∃ source, t ∈ (Scan.ofSource source).tokens
  noText : t.kind ≠ .text
  finite : t.literal.isFinite = true

/-- The token of a lexeme, on the first line. -/
def Token.ofLexeme (lexeme : String) : Token :=
  ((Scan.ofSource lexeme).tokens.headD default).moved firstLine

/-- The kinds of operators. -/
def TokenKind.operates (kind : TokenKind) : Bool := kind == .bang || (Tier.of? kind).isSome

theorem TokenKind.operates_of_unary {kind : TokenKind} (h : kind = .bang ∨ kind = .minus) :
    kind.operates = true := by
  rcases h with rfl | rfl <;> rfl

theorem TokenKind.operates_of_tier {kind : TokenKind} {tier : Tier} (h : Tier.of? kind = some tier) :
    kind.operates = true := by
  simp [operates, h]

namespace Token.Plain

variable {t : Token}

/-- A plain token comes from some source. -/
theorem scannable (h : t.Plain) (hk : t.kind ≠ .endMark) : t.content.Scannable := by
  obtain ⟨source, hsource⟩ := h.scanned
  exact ⟨hk, source, List.mem_map_of_mem hsource⟩

/-- The lexeme of a token determines it up to its line. -/
theorem ofLexeme_lexeme (h : t.Plain) (hk : t.kind ≠ .endMark) :
    Token.ofLexeme t.lexeme = t.moved firstLine := by
  have hscannable : ∀ c ∈ [t.content], c.Scannable := by simpa using h.scannable hk
  have hscan := Scan.ofSource_spaced hscannable (.inl rfl)
  have htokens : (Scan.ofSource t.lexeme).tokens.map Token.content =
      [t.content, ⟨.endMark, "", .nil⟩] := hscan.1
  obtain ⟨u, us, hu, hcontent, -⟩ := List.map_eq_cons_iff.mp htokens
  rw [ofLexeme, hu]
  obtain ⟨kind, lexeme, literal, line⟩ := t
  obtain ⟨kind', lexeme', literal', line'⟩ := u
  cases hcontent
  rfl

/-- The piece that a token is. -/
theorem exists_piece (h : t.Plain) (hk : t.kind ≠ .endMark) :
    ∃ p : Piece, p.Lexical ∧ p.HasKind t.kind ∧ t.lexeme.toList = p.chars ∧ t.literal = p.value := by
  obtain ⟨p, hp⟩ := Scan.exists_spelling (h.scannable hk)
  obtain ⟨u, hu, hdenotes⟩ := Piece.token?_of_isToken hp.isToken 1
  have hcontent := hp.content 1
  rw [hu, Option.map_some, Option.some.injEq] at hcontent
  obtain ⟨kind, lexeme, literal, line⟩ := t
  obtain ⟨kind', lexeme', literal', line'⟩ := u
  cases hcontent
  exact ⟨p, hp.lexical, hdenotes.kind, hdenotes.lexeme, hdenotes.literal⟩

/-- A number denotes a finite number. -/
theorem number (h : t.Plain) (hk : t.kind = .number) :
    ∃ x negative m, t.literal = .number x ∧ Reading.of x = .finite negative m := by
  have hwords : ∀ w ∈ TokenKind.words, w.2 ≠ .number := by decide
  have hsigns : ∀ s ∈ Piece.signs, s.2 ≠ .number := by decide
  obtain ⟨p, hlexical, hkind, -, hliteral⟩ := h.exists_piece (by rw [hk]; nofun)
  rw [hk] at hkind
  cases hkind with
  | reserved hmem => exact absurd rfl (hwords _ hmem)
  | sign chars =>
    cases hlexical with
    | sign hmem => exact absurd rfl (hsigns _ hmem)
  | numeral whole fraction =>
    have hfinite := h.finite
    rw [hliteral, Piece.value, Value.isFinite] at hfinite
    split at hfinite
    · next negative m hm => exact ⟨_, negative, m, hliteral, hm⟩
    · cases hfinite

/-- A name is a word that is not reserved. -/
theorem name (h : t.Plain) (hk : t.kind = .identifier) :
    ∃ c cs, t.lexeme.toList = c :: cs ∧ isLetter c = true ∧ ∀ d ∈ cs, isWordChar d = true := by
  have hwords : ∀ w ∈ TokenKind.words, w.2 ≠ .identifier := by decide
  have hsigns : ∀ s ∈ Piece.signs, s.2 ≠ .identifier := by decide
  obtain ⟨p, hlexical, hkind, hlexeme, -⟩ := h.exists_piece (by rw [hk]; nofun)
  rw [hk] at hkind
  cases hkind with
  | reserved hmem => exact absurd rfl (hwords _ hmem)
  | sign chars =>
    cases hlexical with
    | sign hmem => exact absurd rfl (hsigns _ hmem)
  | identifier hfree =>
    cases hlexical with
    | word hc hcs => exact ⟨_, _, hlexeme, hc, hcs⟩

/-- An operator is no head of another group, and there is no blank or bracket in it. -/
theorem operator (h : t.Plain) (hk : t.kind.operates = true) :
    Bracketed.Solid t.lexeme.toList ∧ t.lexeme ≠ "group" ∧ t.lexeme ≠ "=" := by
  have hwords : ∀ w ∈ TokenKind.words, w.2.operates = true →
      Bracketed.Solid w.1.toList ∧ w.1.toList ≠ "group".toList ∧
        w.1.toList ≠ "=".toList := by decide
  have hsigns : ∀ s ∈ Piece.signs, s.2.operates = true →
      Bracketed.Solid s.1 ∧ s.1 ≠ "group".toList ∧ s.1 ≠ "=".toList := by decide
  have hend : t.kind ≠ .endMark := by
    intro hend
    rw [hend] at hk
    cases hk
  obtain ⟨p, hlexical, hkind, hlexeme, -⟩ := h.exists_piece hend
  have hchars : Bracketed.Solid p.chars ∧ p.chars ≠ "group".toList ∧ p.chars ≠ "=".toList := by
    generalize t.kind = kind at hk hkind
    cases hkind with
    | text inner => cases hk
    | numeral whole fraction => cases hk
    | identifier hfree => cases hk
    | reserved hmem =>
      have hword := hwords _ hmem hk
      rwa [String.toList_ofList] at hword
    | sign chars =>
      cases hlexical with
      | sign hmem => exact hsigns _ hmem hk
  rw [← hlexeme] at hchars
  exact ⟨hchars.1, fun heq => hchars.2.1 (by rw [heq]), fun heq => hchars.2.2 (by rw [heq])⟩

end Token.Plain

/-! ## Reading back -/

namespace Bracketed

/-- The name that a word is. -/
def name : Bracketed → Token
  | word letters => .ofLexeme (String.ofList letters)
  | group _ _ => default

/-- The expression that a word is. A number is taken as its text. -/
def atom (letters : List Char) : Expr :=
  if letters.head?.any fun c => isDigit c || c == '-' then .literal (.text (String.ofList letters)) 1
  else (Expr.ofToken? (.ofLexeme (String.ofList letters))).getD default

/-- The expression that a group is, given its items and the expressions that these are. -/
def toExprOf (head : String) (items : List Bracketed) : List Expr → Expr
  | [e] => if head = "group" then .grouping e 1 else .unary (.ofLexeme head) e 1
  | [l, r] =>
    if head = "=" then .assign (items.headD default).name r 1
    else
      match Tier.of? (Token.ofLexeme head).kind with
      | some tier => tier.join l (.ofLexeme head) r
      | none => default
  | _ => default

mutual

/-- The expression of a bracketed form. -/
def toExpr : Bracketed → Expr
  | word letters => atom letters
  | group head items => toExprOf (String.ofList head) items (toExprs items)

/-- The expressions that forms are, one by one. -/
def toExprs : List Bracketed → List Expr
  | [] => []
  | x :: xs => x.toExpr :: toExprs xs

end

/-- The statement that a group is, given its items and the statements that these are. -/
def toStmtOf (head : String) (items : List Bracketed) (ss : List Stmt) : Stmt :=
  match head, items, ss with
  | ";", [x], _ => .expression x.toExpr 1
  | "print", [x], _ => .print x.toExpr 1
  | "var", [x], _ => .declare x.name none 1
  | "var", [x, y], _ => .declare x.name (some y.toExpr) 1
  | "block", _, ss => .block ss 1
  | "if", [x, _], [_, s] => .ifThen x.toExpr s 1
  | "if", [x, _, _], [_, s, t] => .ifElse x.toExpr s t 1
  | "while", [x, _], [_, s] => .loop x.toExpr s 1
  | _, _, _ => default

mutual

/-- The statement of a bracketed form. -/
def toStmt : Bracketed → Stmt
  | word _ => default
  | group head items => toStmtOf (String.ofList head) items (toStmts items)

/-- The statements that forms are, one by one. -/
def toStmts : List Bracketed → List Stmt
  | [] => []
  | x :: xs => x.toStmt :: toStmts xs

end

end Bracketed

/-! ## Numbers that are written alike -/

/-- A number as its text. -/
def Value.worded : Value → Value
  | .number x => .text (displayNumber x)
  | v => v

/-- The expression with every number as its text. -/
def Expr.worded : Expr → Expr
  | literal v l => .literal v.worded l
  | unary op e l => .unary op e.worded l
  | binary e op f l => .binary e.worded op f.worded l
  | logical e op f l => .logical e.worded op f.worded l
  | grouping e l => .grouping e.worded l
  | assign name e l => .assign name e.worded l
  | e => e

namespace Stmt

mutual

/-- The statement with every number as its text. -/
def worded : Stmt → Stmt
  | expression e l => .expression e.worded l
  | print e l => .print e.worded l
  | declare name first l => .declare name (first.map Expr.worded) l
  | block body l => .block (wordedAll body) l
  | ifThen c s l => .ifThen c.worded s.worded l
  | ifElse c s t l => .ifElse c.worded s.worded t.worded l
  | loop c s l => .loop c.worded s.worded l
  | s => s

/-- Statements in a row with every number as its text. -/
def wordedAll : List Stmt → List Stmt
  | [] => []
  | s :: ss => s.worded :: wordedAll ss

end

end Stmt

/-! ## Words -/

namespace Bracketed

/-- A class of characters without the blank and the brackets can stand in words. -/
theorem inWord_of_class {p : Char → Bool} (hp : p ' ' = false ∧ p '(' = false ∧ p ')' = false)
    {c : Char} (h : p c = true) : inWord c = true := by
  obtain ⟨hblank, hopen, hclose⟩ := hp
  simp only [inWord, Bool.and_eq_true, bne_iff_ne]
  refine ⟨⟨?_, ?_⟩, ?_⟩ <;> rintro rfl <;> simp_all

theorem inWord_of_inNumber {c : Char} (h : inNumber c = true) : inWord c = true :=
  inWord_of_class (by decide) h

/-- What may stand in a name may stand in a word. -/
theorem inWord_of_isWordChar {c : Char} (h : isWordChar c = true) : inWord c = true :=
  inWord_of_class (by decide) h

/-- The text of a number is a word, and it is read as a literal. -/
theorem atom_of_number {x : Float} {negative : Bool} {m : Magnitude}
    (h : Reading.of x = .finite negative m) :
    Solid (Value.displayNumber x).toList ∧
      atom (Value.displayNumber x).toList = .literal (.text (Value.displayNumber x)) 1 := by
  obtain ⟨cs, hcs, htext⟩ := Value.numeric_displayNumber h
  obtain ⟨d, rest, rfl, hd⟩ := hcs.starts
  have hstart : ((Value.displayNumber x).toList.head?.any fun c => isDigit c || c == '-') = true := by
    rw [htext]
    cases negative
    · simp [signChars, hd]
    · simp [signChars]
  constructor
  · intro c hc
    rw [htext] at hc
    rcases List.mem_append.mp hc with hc | hc
    · cases negative with
      | false => cases hc
      | true =>
        rw [List.mem_singleton.mp hc]
        decide
    · exact inWord_of_inNumber (hcs.all c hc)
  · rw [atom, if_pos hstart, String.ofList_toList]

/-- A letter begins a word, and a digit does not. -/
theorem not_isDigit_of_isLetter {c : Char} (h : isLetter c = true) : isDigit c = false := by
  by_contra hd
  have hfirst := (Piece.first_of_digit (eq_true_of_ne_false hd) []).symm.trans
    (Piece.first_of_letter h [])
  cases hfirst

/-- A name is a word, and it is read as a variable. -/
theorem atom_of_name {t : Token} (h : t.NamedIn Token.Plain) :
    Solid t.lexeme.toList ∧ atom t.lexeme.toList = .read (t.moved firstLine) 1 ∧
      (word t.lexeme.toList).name = t.moved firstLine := by
  obtain ⟨hplain, hk⟩ := h
  obtain ⟨c, cs, hchars, hc, hcs⟩ := hplain.name hk
  have hlexeme := hplain.ofLexeme_lexeme (by rw [hk]; nofun)
  have hminus : c ≠ '-' := by
    rintro rfl
    exact absurd hc (by decide)
  have hstart : ¬ (t.lexeme.toList.head?.any fun c => isDigit c || c == '-') = true := by
    simp [hchars, not_isDigit_of_isLetter hc, hminus]
  refine ⟨?_, ?_, ?_⟩
  · rw [hchars]
    intro d hd
    rcases List.mem_cons.mp hd with rfl | hd
    · exact inWord_of_isWordChar (by simp [isWordChar, hc])
    · exact inWord_of_isWordChar (hcs d hd)
  · have hkind : (t.moved firstLine).kind = .identifier := hk
    rw [atom, if_neg hstart, String.ofList_toList, hlexeme, Expr.ofToken?, hkind]
    rfl
  · rw [name, String.ofList_toList, hlexeme]

/-- The text of a value that comes from a plain token is a word, and it is read as a literal. -/
theorem atom_of_value {v : Value} (h : v.DrawnFrom Token.Plain) :
    Solid v.display.toList ∧ atom v.display.toList = .literal v.worded 1 := by
  cases v with
  | nil => exact ⟨by decide, by decide +kernel⟩
  | bool b => cases b <;> exact ⟨by decide, by decide +kernel⟩
  | number y =>
    obtain ⟨t, ht, hk | hk, hv⟩ := h
    · obtain ⟨x, negative, m, hliteral, hfinite⟩ := ht.number hk
      cases hv.trans hliteral
      exact atom_of_number hfinite
    · exact absurd hk ht.noText
  | text _ | integer _ =>
    obtain ⟨t, ht, hk | hk, hv⟩ := h
    · obtain ⟨x, negative, m, hliteral, hfinite⟩ := ht.number hk
      cases hv.trans hliteral
    · exact absurd hk ht.noText

/-! ## Reading back what is displayed -/

/-- An operator is a head that is no other one, and it is read as the operator. -/
theorem head_of_operator {op : Token} (h : op.Plain) (hk : op.kind.operates = true) :
    Solid op.lexeme.toList ∧ op.lexeme ≠ "group" ∧ op.lexeme ≠ "=" ∧
      Token.ofLexeme op.lexeme = op.moved firstLine := by
  obtain ⟨hsolid, hgroup, hequal⟩ := h.operator hk
  refine ⟨hsolid, hgroup, hequal, h.ofLexeme_lexeme ?_⟩
  intro hend
  rw [hend] at hk
  cases hk

/-- An operation is recovered if its operands are. -/
theorem toExpr_operation {e f : Expr} {op : Token} {tier : Tier} (hop : op.Plain)
    (htier : Tier.of? op.kind = some tier)
    (he : e.bracketed.toExpr = e.worded.moved firstLine)
    (hf : f.bracketed.toExpr = f.worded.moved firstLine) :
    (group op.lexeme.toList [e.bracketed, f.bracketed]).toExpr =
      tier.join (e.worded.moved firstLine) (op.moved firstLine) (f.worded.moved firstLine) := by
  obtain ⟨-, -, hequal, hread⟩ := head_of_operator hop (TokenKind.operates_of_tier htier)
  have hkind : Tier.of? (op.moved firstLine).kind = some tier := htier
  simp only [toExpr, toExprs, toExprOf, String.ofList_toList, if_neg hequal, hread, hkind, he, hf]

/-- What is displayed of an expression can be read back, but for its lines. -/
theorem toExpr_bracketed {e : Expr} (he : e.DrawnFrom Token.Plain) (hb : e.WellBuilt) :
    e.bracketed.toExpr = e.worded.moved firstLine := by
  induction e with
  | literal v l => exact (atom_of_value he).2
  | read name l => exact (atom_of_name he).2.1
  | unary op e l ih =>
    obtain ⟨-, hgroup, -, hread⟩ := head_of_operator he.1 (TokenKind.operates_of_unary hb.1)
    simp only [Expr.bracketed, toExpr, toExprs, toExprOf, String.ofList_toList, if_neg hgroup, hread,
      ih he.2 hb.2]
    rfl
  | binary e op f l ihe ihf =>
    obtain ⟨⟨tier, htier, hconnects⟩, hbe, hbf⟩ := hb
    refine (toExpr_operation he.1 htier (ihe he.2.1 hbe) (ihf he.2.2 hbf)).trans ?_
    rw [Tier.join, if_neg (by simp [hconnects])]
    rfl
  | logical e op f l ihe ihf =>
    obtain ⟨⟨tier, htier, hconnects⟩, hbe, hbf⟩ := hb
    refine (toExpr_operation he.1 htier (ihe he.2.1 hbe) (ihf he.2.2 hbf)).trans ?_
    rw [Tier.join, if_pos hconnects]
    rfl
  | grouping e l ih =>
    simp only [Expr.bracketed, toExpr, toExprs, toExprOf, String.ofList_toList, ih he hb]
    rfl
  | assign name e l ih =>
    have hname : (word name.lexeme.toList).name = name.moved firstLine := (atom_of_name he.1).2.2
    simp only [Expr.bracketed, toExpr, toExprs, toExprOf, String.ofList_toList, List.headD_cons, hname,
      ih he.2 hb]
    rfl
  | malformed kind l => exact hb.elim

/-- There are no blanks and no brackets in the words of an expression. -/
theorem legible_expr {e : Expr} (he : e.DrawnFrom Token.Plain) (hb : e.WellBuilt) :
    e.bracketed.Legible := by
  induction e with
  | literal v l => exact (atom_of_value he).1
  | read name l => exact (atom_of_name he).1
  | unary op e l ih =>
    exact ⟨(head_of_operator he.1 (TokenKind.operates_of_unary hb.1)).1, ih he.2 hb.2, trivial⟩
  | binary e op f l ihe ihf | logical e op f l ihe ihf =>
    obtain ⟨⟨tier, htier, -⟩, hbe, hbf⟩ := hb
    have hhead := head_of_operator he.1 (TokenKind.operates_of_tier htier)
    exact ⟨hhead.1, ihe he.2.1 hbe, ihf he.2.2 hbf, trivial⟩
  | grouping e l ih => exact ⟨by decide, ih he hb, trivial⟩
  | assign name e l ih => exact ⟨by decide, (atom_of_name he.1).1, ih he.2 hb, trivial⟩
  | malformed kind l => exact hb.elim

mutual

/-- What is displayed of a statement can be read back, but for its lines. -/
theorem toStmt_bracketed {s : Stmt} (hs : s.DrawnFrom Token.Plain) (hb : s.WellBuilt) :
    s.bracketed.toStmt = s.worded.moved firstLine := by
  cases s with
  | expression e l | print e l =>
    simp only [Stmt.bracketed, toStmt, toStmtOf, String.ofList_toList, toExpr_bracketed hs hb]
    rfl
  | declare name first l =>
    have hname : (word name.lexeme.toList).name = name.moved firstLine := (atom_of_name hs.1).2.2
    cases first with
    | none =>
      simp only [Stmt.bracketed, toStmt, toStmtOf, String.ofList_toList, hname]
      rfl
    | some e =>
      simp only [Stmt.bracketed, toStmt, toStmtOf, String.ofList_toList, hname,
        toExpr_bracketed (hs.2 e rfl) (hb e rfl)]
      rfl
  | block body l =>
    simp only [Stmt.bracketed, toStmt, toStmtOf, String.ofList_toList, toStmts_bracketed hs hb]
    rfl
  | ifThen c s l | loop c s l =>
    simp only [Stmt.bracketed, toStmt, toStmts, toStmtOf, String.ofList_toList,
      toExpr_bracketed hs.1 hb.1, toStmt_bracketed hs.2 hb.2]
    rfl
  | ifElse c s t l =>
    simp only [Stmt.bracketed, toStmt, toStmts, toStmtOf, String.ofList_toList,
      toExpr_bracketed hs.1 hb.1, toStmt_bracketed hs.2.1 hb.2.1, toStmt_bracketed hs.2.2 hb.2.2]
    rfl
  | malformed kind l => exact hb.elim

/-- Statements in a row are recovered one by one. -/
theorem toStmts_bracketed {ss : List Stmt} (hs : Stmt.DrawnFromAll Token.Plain ss)
    (hb : Stmt.WellBuiltAll ss) :
    toStmts (Stmt.bracketedEach ss) = Stmt.movedAll firstLine (Stmt.wordedAll ss) := by
  cases ss with
  | nil => rfl
  | cons s ss =>
    rw [Stmt.bracketedEach, toStmts, toStmt_bracketed hs.1 hb.1, toStmts_bracketed hs.2 hb.2]
    rfl

end

mutual

/-- No word of the form of a statement has a blank or a bracket in it. -/
theorem legible_stmt {s : Stmt} (hs : s.DrawnFrom Token.Plain) (hb : s.WellBuilt) :
    s.bracketed.Legible := by
  cases s with
  | expression e l | print e l => exact ⟨by decide, legible_expr hs hb, trivial⟩
  | declare name first l =>
    have hname : Solid name.lexeme.toList := (atom_of_name hs.1).1
    cases first with
    | none => exact ⟨by decide, hname, trivial⟩
    | some e => exact ⟨by decide, hname, legible_expr (hs.2 e rfl) (hb e rfl), trivial⟩
  | block body l => exact ⟨by decide, legible_each hs hb⟩
  | ifThen c s l | loop c s l =>
    exact ⟨by decide, legible_expr hs.1 hb.1, legible_stmt hs.2 hb.2, trivial⟩
  | ifElse c s t l =>
    exact ⟨by decide, legible_expr hs.1 hb.1, legible_stmt hs.2.1 hb.2.1,
      legible_stmt hs.2.2 hb.2.2, trivial⟩
  | malformed kind l => exact hb.elim

theorem legible_each {ss : List Stmt} (hs : Stmt.DrawnFromAll Token.Plain ss)
    (hb : Stmt.WellBuiltAll ss) : LegibleAll (Stmt.bracketedEach ss) := by
  cases ss with
  | nil => trivial
  | cons s ss => exact ⟨legible_stmt hs.1 hb.1, legible_each hs.2 hb.2⟩

end

end Bracketed

/-! ## What does not show -/

/-- A number and its text are displayed alike. -/
theorem Value.display_worded (v : Value) : v.worded.display = v.display := by
  cases v <;> rfl

/-- Neither the lines of an expression show nor which one it is of the numbers that are written alike. -/
theorem Expr.display_worded (e : Expr) : (e.worded.moved firstLine).display = e.display := by
  induction e with
  | literal v l => exact v.display_worded
  | _ => simp_all [worded, moved, display, Token.moved]

namespace Stmt

mutual

theorem display_worded (s : Stmt) : (s.worded.moved firstLine).display = s.display := by
  cases s with
  | expression e l | print e l => simp only [worded, moved, display, e.display_worded]
  | declare name first l =>
    cases first with
    | none => rfl
    | some e => simp only [worded, moved, Option.map_some, display, e.display_worded, Token.moved]
  | block body l => simp only [worded, moved, display, displayEach_worded body]
  | ifThen c s l | loop c s l =>
    simp only [worded, moved, display, c.display_worded, display_worded s]
  | ifElse c s t l =>
    simp only [worded, moved, display, c.display_worded, display_worded s, display_worded t]
  | malformed kind l => rfl

theorem displayEach_worded (ss : List Stmt) :
    displayEach (movedAll firstLine (wordedAll ss)) = displayEach ss := by
  cases ss with
  | nil => rfl
  | cons s ss =>
    simp only [wordedAll, movedAll, displayEach, display_worded s, displayEach_worded ss]

end

theorem map_display_worded (ss : List Stmt) :
    (movedAll firstLine (wordedAll ss)).map display = ss.map display := by
  induction ss with
  | nil => rfl
  | cons s ss ih => rw [wordedAll, movedAll, List.map_cons, List.map_cons, display_worded, ih]

/-! ## Statements that are displayed alike -/

variable {ss us : List Stmt}

/-- Statements that are displayed alike have the same forms. -/
theorem bracketedEach_of_display (hs : DrawnFromAll Token.Plain ss) (hs' : WellBuiltAll ss)
    (hu : DrawnFromAll Token.Plain us) (hu' : WellBuiltAll us)
    (h : ss.map display = us.map display) : bracketedEach ss = bracketedEach us := by
  induction ss generalizing us with
  | nil =>
    cases us with
    | nil => rfl
    | cons u us => cases h
  | cons s ss ih =>
    cases us with
    | nil => cases h
    | cons u us =>
      rw [List.map_cons, List.map_cons, List.cons.injEq] at h
      have hwrite : s.bracketed.write = u.bracketed.write := by
        rw [← toList_display, ← toList_display, h.1]
      rw [bracketedEach, bracketedEach, ih hs.2 hs'.2 hu.2 hu'.2 h.2,
        Bracketed.eq_of_write_eq (Bracketed.legible_stmt hs.1 hs'.1)
          (Bracketed.legible_stmt hu.1 hu'.1) hwrite]

end Stmt

/-- Two programs that are read from tokens of the scanner, without texts and without infinite numbers
among them, are displayed alike exactly if they are equal up to lines and up to numbers that are written
alike. -/
theorem displayed_alike_iff (nesting nesting' : Nat) {ts us : List Token} (hts : ∀ t ∈ ts, t.Plain)
    (hus : ∀ t ∈ us, t.Plain) :
    (Program.ofTokens nesting ts).statements.map Stmt.display =
        (Program.ofTokens nesting' us).statements.map Stmt.display ↔
      Stmt.movedAll firstLine (Stmt.wordedAll (Program.ofTokens nesting ts).statements) =
        Stmt.movedAll firstLine (Stmt.wordedAll (Program.ofTokens nesting' us).statements) := by
  have hts' := wellBuiltAll_ofTokens nesting ts
  have hus' := wellBuiltAll_ofTokens nesting' us
  have hdrawn := drawnFromAll_ofTokens nesting hts
  have hdrawn' := drawnFromAll_ofTokens nesting' hus
  constructor
  · intro h
    rw [← Bracketed.toStmts_bracketed hdrawn hts', ← Bracketed.toStmts_bracketed hdrawn' hus',
      Stmt.bracketedEach_of_display hdrawn hts' hdrawn' hus' h]
  · intro h
    rw [← Stmt.map_display_worded, h, Stmt.map_display_worded]

/-- A program on two lines. -/
def narrowSource : String := "1 - a - -2;\nif (a) print (a);"

/-- The same program, laid out and with its numbers written in another way. -/
def wideSource : String := "1.0\n- a - -2.00; if (a)\nprint (a);"

/-- Where there are no texts and all numbers are finite, every token is plain. -/
theorem plain_of_checked {source : String}
    (h : ∀ t ∈ (Scan.ofSource source).tokens, t.kind ≠ .text ∧ t.literal.isFinite = true) :
    ∀ t ∈ (Scan.ofSource source).tokens, t.Plain :=
  fun t ht => ⟨⟨source, ht⟩, (h t ht).1, (h t ht).2⟩

theorem narrowSource_displayed_as_wideSource :
    (∀ t ∈ (Scan.ofSource narrowSource).tokens, t.Plain) ∧
      (∀ t ∈ (Scan.ofSource wideSource).tokens, t.Plain) ∧
      (Program.ofTokens 40 (Scan.ofSource narrowSource).tokens).statements.map Stmt.display =
        ["(; (- (- 1 a) (- 2)))", "(if a (print (group a)))"] ∧
      Stmt.movedAll firstLine
          (Stmt.wordedAll (Program.ofTokens 40 (Scan.ofSource narrowSource).tokens).statements) =
        Stmt.movedAll firstLine
          (Stmt.wordedAll (Program.ofTokens 40 (Scan.ofSource wideSource).tokens).statements) := by
  have hnarrow : ∀ t ∈ (Scan.ofSource narrowSource).tokens, t.Plain :=
    plain_of_checked (by decide +kernel)
  have hwide : ∀ t ∈ (Scan.ofSource wideSource).tokens, t.Plain :=
    plain_of_checked (by decide +kernel)
  have hdisplay : (Program.ofTokens 40 (Scan.ofSource narrowSource).tokens).statements.map
      Stmt.display = ["(; (- (- 1 a) (- 2)))", "(if a (print (group a)))"] := by decide +kernel
  have hdisplay' : (Program.ofTokens 40 (Scan.ofSource wideSource).tokens).statements.map
      Stmt.display = ["(; (- (- 1 a) (- 2)))", "(if a (print (group a)))"] := by decide +kernel
  exact ⟨hnarrow, hwide, hdisplay,
    (displayed_alike_iff 40 40 hnarrow hwide).mp (hdisplay.trans hdisplay'.symm)⟩

end LoxScript
