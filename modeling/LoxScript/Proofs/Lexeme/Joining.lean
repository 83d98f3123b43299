import LoxScript.Lexeme.Scan
import LoxScript.Proofs.Grammar.Relocation

/-!
# Scanning texts that are joined by a line feed

No piece except a text goes beyond the end of a line. So, if a text has no unclosed quotation mark,
the pieces of it followed by a line feed and another text are those of the one, the line feed, and
those of the other (`pieces_joined`). The tokens are the tokens of both, those of the second on later
lines.
-/

namespace LoxScript

/-! ## Runs of characters -/

/-- A run without line feeds does not reach beyond one. -/
theorem takeWhile_joined {p : Char → Bool} (hp : p '\n' = false) (cs ds : List Char) :
    (cs ++ '\n' :: ds).takeWhile p = cs.takeWhile p := by
  induction cs with
  | nil => simp [hp]
  | cons c cs ih =>
    rw [List.cons_append, List.takeWhile_cons, List.takeWhile_cons, ih]

theorem dropWhile_joined {p : Char → Bool} (hp : p '\n' = false) (cs ds : List Char) :
    (cs ++ '\n' :: ds).dropWhile p = cs.dropWhile p ++ '\n' :: ds := by
  induction cs with
  | nil => simp [hp]
  | cons c cs ih =>
    rw [List.cons_append, List.dropWhile_cons, List.dropWhile_cons, ih]
    split <;> rfl

/-- A run that ends within a text ends there whatever follows the text. -/
theorem span_joined {p : Char → Bool} {cs left : List Char} {q : Char}
    (h : cs.dropWhile p = q :: left) (ds : List Char) :
    (cs ++ ds).takeWhile p = cs.takeWhile p ∧ (cs ++ ds).dropWhile p = q :: (left ++ ds) := by
  induction cs with
  | nil => cases h
  | cons c cs ih =>
    rw [List.dropWhile_cons] at h
    rw [List.cons_append, List.takeWhile_cons, List.takeWhile_cons, List.dropWhile_cons]
    by_cases hc : p c = true
    · rw [if_pos hc] at h
      obtain ⟨htake, hdrop⟩ := ih h
      rw [if_pos hc, if_pos hc, if_pos hc, htake]
      exact ⟨rfl, hdrop⟩
    · rw [if_neg hc] at h
      cases h
      rw [if_neg hc, if_neg hc, if_neg hc]
      exact ⟨rfl, rfl⟩

/-! ## Pieces -/

namespace Piece

/-- The piece is a quotation mark that is never closed. -/
def isOpen : Piece → Bool
  | openText _ => true
  | _ => false

variable {ds : List Char}

/-- A text that is closed ends where it did, whatever follows the source. -/
theorem afterQuote_joined {rest : List Char} (h : (afterQuote rest).1.isOpen = false) :
    afterQuote (rest ++ ds) = ((afterQuote rest).1, (afterQuote rest).2 ++ ds) := by
  unfold afterQuote at h ⊢
  cases hr : rest.dropWhile isInner with
  | nil =>
    rw [hr] at h
    cases h
  | cons q left =>
    obtain ⟨htake, hdrop⟩ := span_joined hr ds
    rw [htake, hdrop]

/-- A line feed ends a numeral. -/
theorem afterDigit_joined (c : Char) (rest : List Char) :
    afterDigit c (rest ++ '\n' :: ds) =
      ((afterDigit c rest).1, (afterDigit c rest).2 ++ '\n' :: ds) := by
  have hdigit : Decimal.isDigit '\n' = false := by decide
  unfold afterDigit
  rw [takeWhile_joined hdigit, dropWhile_joined hdigit]
  generalize rest.dropWhile Decimal.isDigit = left
  cases left with
  | nil => rfl
  | cons d left =>
    by_cases hpoint : d = '.'
    · subst hpoint
      cases left with
      | nil => simp [hdigit]
      | cons e left =>
        by_cases he : Decimal.isDigit e = true
        · simp [he, takeWhile_joined hdigit, dropWhile_joined hdigit]
        · simp [he]
    · simp [hpoint]

/-- A line feed ends an operator and a comment. -/
theorem afterSign_joined (c : Char) (rest : List Char) :
    afterSign c (rest ++ '\n' :: ds) =
      ((afterSign c rest).1, (afterSign c rest).2 ++ '\n' :: ds) := by
  have hremark : isRemark '\n' = false := by decide
  cases rest with
  | nil => simp [afterSign]
  | cons d left =>
    simp only [List.cons_append, afterSign]
    by_cases hcomment : c = '/' ∧ d = '/'
    · simp only [if_pos hcomment, takeWhile_joined hremark, dropWhile_joined hremark]
    · simp only [if_neg hcomment]
      by_cases hd : d = '='
      · simp only [if_pos hd]
        cases signEqualKind? c <;> rfl
      · simp only [if_neg hd]
        rfl

/-- A piece that is no unclosed text is the same if a line feed and another text follow. -/
theorem first_joined {c : Char} {rest : List Char} (h : (first c rest).1.isOpen = false) :
    first c (rest ++ '\n' :: ds) = ((first c rest).1, (first c rest).2 ++ '\n' :: ds) := by
  have hgap : isGap '\n' = false := by decide
  have hword : isWordChar '\n' = false := by decide
  unfold first at h ⊢
  by_cases h₁ : c = '\n'
  · simp only [if_pos h₁]
  by_cases h₂ : isGap c = true
  · simp only [if_neg h₁, if_pos h₂, takeWhile_joined hgap, dropWhile_joined hgap]
  by_cases h₃ : c = Text.quotationMark
  · simp only [if_neg h₁, if_neg h₂, if_pos h₃] at h ⊢
    exact afterQuote_joined h
  by_cases h₄ : Decimal.isDigit c = true
  · simp only [if_neg h₁, if_neg h₂, if_neg h₃, if_pos h₄]
    exact afterDigit_joined c rest
  by_cases h₅ : isLetter c = true
  · simp only [if_neg h₁, if_neg h₂, if_neg h₃, if_neg h₄, if_pos h₅, takeWhile_joined hword,
      dropWhile_joined hword]
  · simp only [if_neg h₁, if_neg h₂, if_neg h₃, if_neg h₄, if_neg h₅]
    exact afterSign_joined c rest

end Piece

theorem pieces_cons (c : Char) (rest : List Char) :
    pieces (c :: rest) = (Piece.first c rest).1 :: pieces (Piece.first c rest).2 := by
  rw [pieces]

/-- The pieces of two texts that are joined by a line feed, if the first one has no unclosed
quotation mark. -/
theorem pieces_joined {cs : List Char} (h : ∀ p ∈ pieces cs, p.isOpen = false) (ds : List Char) :
    pieces (cs ++ '\n' :: ds) = pieces cs ++ .newline :: pieces ds := by
  fun_induction pieces cs with
  | case1 =>
    rw [List.nil_append, pieces_cons]
    rfl
  | case2 c rest ih =>
    have hfirst : (Piece.first c rest).1.isOpen = false := h _ (by simp)
    have hlater := ih fun p hp => h p (by simp [hp])
    rw [List.cons_append, pieces_cons, Piece.first_joined hfirst, hlater]
    rfl

/-! ## Tokens -/

/-- No word is an end mark. -/
theorem TokenKind.ofWord?_ne_endMark (name : String) :
    TokenKind.ofWord? name ≠ some .endMark := by
  intro h
  obtain ⟨before, after, hwords, -⟩ := List.lookup_eq_some_iff.mp h
  have hmem : (name, TokenKind.endMark) ∈ TokenKind.words := by
    rw [hwords]
    simp
  have hall : ∀ w ∈ TokenKind.words, w.2 ≠ .endMark := by decide
  exact hall _ hmem rfl

namespace Piece

/-- The piece stands for no end mark. -/
def Proper (p : Piece) : Prop := ∀ line t, p.token? line = some t → Cursor.isProper t = true

theorem proper_sign {chars : List Char} {kind : TokenKind} (h : kind ≠ .endMark) :
    (sign chars kind).Proper := by
  intro line t ht
  cases ht
  simpa [Cursor.isProper] using h

theorem proper_single (c : Char) : (single c).Proper := by
  unfold single
  split
  · next kind hk =>
    refine proper_sign ?_
    intro h
    subst h
    unfold signKind? at hk
    split at hk <;> cases hk
  · intro line t ht
    cases ht

theorem proper_afterSign (c : Char) (rest : List Char) : (afterSign c rest).1.Proper := by
  unfold afterSign
  split
  · exact proper_single c
  · split
    · intro line t ht
      cases ht
    · split
      · split
        · next kind hk =>
          refine proper_sign ?_
          intro h
          subst h
          unfold signEqualKind? at hk
          split at hk <;> cases hk
        · exact proper_single c
      · exact proper_single c

/-- No piece of a source becomes an end mark. -/
theorem proper_first (c : Char) (rest : List Char) : (first c rest).1.Proper := by
  unfold first
  split
  · intro line t ht
    cases ht
  split
  · intro line t ht
    cases ht
  split
  · intro line t ht
    unfold afterQuote at ht
    split at ht <;> cases ht
    rfl
  split
  · intro line t ht
    unfold afterDigit at ht
    repeat' split at ht
    all_goals
      cases ht
      rfl
  split
  · intro line t ht
    cases ht
    have hword := TokenKind.ofWord?_ne_endMark (String.ofList (c :: rest.takeWhile isWordChar))
    cases hk : TokenKind.ofWord? (String.ofList (c :: rest.takeWhile isWordChar)) with
    | none => simp [Cursor.isProper]
    | some kind =>
      rw [hk] at hword
      simpa [Cursor.isProper, hk] using hword
  · exact proper_afterSign c rest

end Piece

theorem proper_pieces (cs : List Char) : ∀ p ∈ pieces cs, p.Proper := by
  fun_induction pieces cs with
  | case1 =>
    intro p hp
    cases hp
  | case2 c rest ih =>
    intro p hp
    rcases List.mem_cons.mp hp with rfl | hp
    · exact Piece.proper_first c rest
    · exact ih p hp

namespace Scan

/-- The tokens of pieces of which the first starts on the given line, without an end mark. -/
def tokensOf (line : Int) : List Piece → List Token
  | [] => []
  | p :: ps =>
    let last := line + Text.newlines p.chars
    (p.token? last).toList ++ tokensOf last ps

/-- The errors of pieces of which the first starts on the given line. -/
def errorsOf (line : Int) : List Piece → List LexicalError
  | [] => []
  | p :: ps =>
    let last := line + Text.newlines p.chars
    (p.error? last).toList ++ errorsOf last ps

/-- The number of line feeds in pieces. -/
def height (ps : List Piece) : Int := Text.newlines (ps.flatMap Piece.chars)

theorem height_cons (p : Piece) (ps : List Piece) :
    height (p :: ps) = Text.newlines p.chars + height ps := by
  simp [height]

/-- The pieces of a source span as many lines as the source. -/
theorem height_pieces (s : String) : height (pieces s.toList) = Text.newlines s.toList := by
  rw [height, flatMap_chars_pieces]

/-- A scan is its tokens, the end mark on the last line, and its errors. -/
theorem ofPieces_eq (line : Int) (ps : List Piece) :
    ofPieces line ps = ⟨tokensOf line ps ++ [Token.endAt (line + height ps)], errorsOf line ps⟩ := by
  induction ps generalizing line with
  | nil => simp [ofPieces, tokensOf, errorsOf, height]
  | cons p ps ih =>
    rw [ofPieces, ih, height_cons]
    simp only [tokensOf, errorsOf, List.append_assoc, Int.add_assoc]

/-- The tokens of more pieces come behind, on the lines below. -/
theorem tokensOf_append (line : Int) (ps qs : List Piece) :
    tokensOf line (ps ++ qs) = tokensOf line ps ++ tokensOf (line + height ps) qs := by
  induction ps generalizing line with
  | nil => simp [tokensOf, height]
  | cons p ps ih =>
    rw [List.cons_append, tokensOf, tokensOf, ih, height_cons]
    simp only [List.append_assoc, Int.add_assoc]

/-- Pieces that start on a later line yield the same tokens on later lines. -/
theorem tokensOf_add (line k : Int) (ps : List Piece) :
    tokensOf (line + k) ps = (tokensOf line ps).map (Token.moved (· + k)) := by
  induction ps generalizing line with
  | nil => rfl
  | cons p ps ih =>
    have hlast : line + k + Text.newlines p.chars = line + Text.newlines p.chars + k := by omega
    have htoken : p.token? (line + Text.newlines p.chars + k) =
        (p.token? (line + Text.newlines p.chars)).map (Token.moved (· + k)) := by
      cases p <;> rfl
    rw [tokensOf, tokensOf]
    simp only [hlast, htoken, ih, List.map_append]
    cases p.token? (line + Text.newlines p.chars) <;> rfl

/-- The tokens of a source are no end marks. -/
theorem isProper_tokensOf {ps : List Piece} (h : ∀ p ∈ ps, p.Proper) (line : Int) :
    ∀ t ∈ tokensOf line ps, Cursor.isProper t = true := by
  induction ps generalizing line with
  | nil =>
    intro t ht
    cases ht
  | cons p ps ih =>
    intro t ht
    rw [tokensOf] at ht
    rcases List.mem_append.mp ht with ht | ht
    · exact h p (by simp) _ t (Option.mem_toList.mp ht)
    · exact ih (fun q hq => h q (by simp [hq])) _ t ht

/-- Whether there are errors does not depend on the line. -/
theorem errorsOf_eq_nil_iff (line : Int) (ps : List Piece) :
    errorsOf line ps = [] ↔ ∀ p ∈ ps, p.error? 0 = none := by
  have herror : ∀ (p : Piece) (l : Int), p.error? l = none ↔ p.error? 0 = none := by
    intro p l
    cases p <;> simp [Piece.error?]
  induction ps generalizing line with
  | nil => simp [errorsOf]
  | cons p ps ih =>
    have hlater := ih (line + Text.newlines p.chars)
    have hfirst := herror p (line + Text.newlines p.chars)
    rw [errorsOf, List.append_eq_nil_iff, List.forall_mem_cons]
    refine and_congr ?_ hlater
    rw [← hfirst]
    cases p.error? (line + Text.newlines p.chars) <;> simp

/-- A quotation mark that is never closed is an error. -/
theorem exists_openText (line : Int) {ps : List Piece} {p : Piece} (h : p ∈ ps)
    (hp : p.isOpen = true) : ∃ e ∈ errorsOf line ps, e.cause = .openText := by
  induction ps generalizing line with
  | nil => cases h
  | cons q ps ih =>
    rw [errorsOf]
    rcases List.mem_cons.mp h with rfl | h
    · cases p with
      | openText inner => exact ⟨_, List.mem_append_left _ (List.mem_singleton.mpr rfl), rfl⟩
      | _ => cases hp
    · obtain ⟨e, he, hcause⟩ := ih (line + Text.newlines q.chars) h
      exact ⟨e, List.mem_append_right _ he, hcause⟩

/-! ## Joined sources -/

/-- The tokens of a source, without the end mark. -/
def bare (source : String) : List Token := tokensOf 1 (pieces source.toList)

/-- The end mark of a source. -/
def endOf (source : String) : Token := Token.endAt (1 + height (pieces source.toList))

/-- The end mark is the last token of a source. -/
theorem tokens_ofSource (source : String) :
    (ofSource source).tokens = bare source ++ [endOf source] := by
  rw [ofSource, ofPieces_eq]
  rfl

theorem isProper_bare (source : String) : ∀ t ∈ bare source, Cursor.isProper t = true :=
  isProper_tokensOf (proper_pieces _) 1

/-- No quotation mark is left open in the source. -/
def Closed (source : String) : Prop := ∀ p ∈ pieces source.toList, p.isOpen = false

/-- A source is closed if no open text was reported. -/
theorem closed_of_errors {source : String}
    (h : ∀ e ∈ (ofSource source).errors, e.cause ≠ .openText) : Closed source := by
  intro p hp
  rw [ofSource, ofPieces_eq] at h
  by_contra hopen
  obtain ⟨e, he, hcause⟩ := exists_openText 1 hp (by simpa using hopen)
  exact h e he hcause

theorem toList_joined (s t : String) :
    (s ++ "\n" ++ t).toList = s.toList ++ '\n' :: t.toList := by
  simp

/-- The pieces of two sources in one are those of both, with a line feed in between. -/
theorem pieces_toList_joined {s : String} (h : Closed s) (t : String) :
    pieces (s ++ "\n" ++ t).toList = pieces s.toList ++ .newline :: pieces t.toList := by
  rw [toList_joined]
  exact pieces_joined h _

/-- The tokens of the second text come on later lines. -/
theorem bare_joined {s : String} (h : Closed s) (t : String) :
    bare (s ++ "\n" ++ t) =
      bare s ++ (bare t).map (Token.moved (· + (height (pieces s.toList) + 1))) := by
  have hline : 1 + height (pieces s.toList) + Text.newlines Piece.newline.chars =
      1 + (height (pieces s.toList) + 1) := by
    show 1 + height (pieces s.toList) + 1 = _
    omega
  unfold bare
  rw [pieces_toList_joined h, tokensOf_append, tokensOf, hline, tokensOf_add]
  rfl

theorem endOf_joined {s : String} (h : Closed s) (t : String) :
    endOf (s ++ "\n" ++ t) = (endOf t).moved (· + (height (pieces s.toList) + 1)) := by
  have hheight : height (pieces (s ++ "\n" ++ t).toList) =
      height (pieces s.toList) + 1 + height (pieces t.toList) := by
    rw [pieces_toList_joined h]
    simp only [height, List.flatMap_append, List.flatMap_cons, Text.newlines_append]
    show ((_ + (1 + _) : Nat) : Int) = _
    omega
  unfold endOf
  rw [hheight]
  show Token.endAt _ =
    Token.endAt (1 + height (pieces t.toList) + (height (pieces s.toList) + 1))
  congr 1
  omega

/-- So are the tokens, but for the end mark of the first source. -/
theorem tokens_joined {s : String} (h : Closed s) (t : String) :
    (ofSource (s ++ "\n" ++ t)).tokens =
      bare s ++ (bare t ++ [endOf t]).map (Token.moved (· + (height (pieces s.toList) + 1))) := by
  rw [tokens_ofSource, bare_joined h, endOf_joined h, List.map_append, List.map_singleton,
    List.append_assoc]

theorem errors_joined {s : String} (h : Closed s) (t : String) :
    (ofSource (s ++ "\n" ++ t)).errors = [] ↔
      (ofSource s).errors = [] ∧ (ofSource t).errors = [] := by
  simp only [ofSource, ofPieces_eq, errorsOf_eq_nil_iff, pieces_toList_joined h]
  constructor
  · intro hall
    exact ⟨fun p hp => hall p (by simp [hp]), fun p hp => hall p (by simp [hp])⟩
  · rintro ⟨hs, ht⟩ p hp
    rcases List.mem_append.mp hp with hp | hp
    · exact hs p hp
    · rcases List.mem_cons.mp hp with rfl | hp
      · rfl
      · exact ht p hp

theorem failed_joined {s : String} (h : Closed s) (t : String) :
    (ofSource (s ++ "\n" ++ t)).failed = ((ofSource s).failed || (ofSource t).failed) := by
  rw [Bool.eq_iff_iff]
  simp only [failed, Bool.or_eq_true, Bool.not_eq_true', ← Bool.not_eq_true, List.isEmpty_iff,
    errors_joined h]
  exact Decidable.not_and_iff_not_or_not

end Scan

end LoxScript
