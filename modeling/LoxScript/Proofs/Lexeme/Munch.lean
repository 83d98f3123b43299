import Mathlib.Data.List.TakeWhile
import LoxScript.Proofs.Lexeme.Joining

/-!
# Maximal munch

This module says what the pieces of a source are without saying how they are found. A piece is
lexical if it belongs to one of the classes that a source may be made of (`Piece.Lexical`). Maximal
munch cuts off the front of a text the longest lexical piece that stands there, whatever its class;
where none does, it cuts off a single stray character or, behind a quotation mark, all that is left
(`Piece.CutOff`). A source is split by doing so again and again (`Splits`).

There is exactly one such splitting of a source, and it is the one that scanning computes
(`splits_iff`). The proof looks at the seven classes one by one: a text that starts with a piece of
the class is cut behind that piece or further on.
-/

namespace LoxScript

namespace Piece

/-! ## The classes of pieces -/

/-- The operators of two characters with their kinds. -/
def doubleSigns : List (List Char × TokenKind) :=
  [(['!', '='], .bangEqual), (['=', '='], .equalEqual), (['>', '='], .greaterEqual),
   (['<', '='], .lessEqual)]

/-- The operators and punctuation marks of one character with their kinds. -/
def singleSigns : List (List Char × TokenKind) :=
  [(['('], .leftParen), ([')'], .rightParen), (['\x7b'], .leftBrace), (['\x7d'], .rightBrace),
   ([','], .comma), (['.'], .dot), (['-'], .minus), (['+'], .plus), ([';'], .semicolon),
   (['/'], .slash), (['*'], .star), (['!'], .bang), (['='], .equal), (['>'], .greater),
   (['<'], .less)]

/-- The operators and punctuation marks with their kinds. -/
def signs : List (List Char × TokenKind) := doubleSigns ++ singleSigns

/-- The piece belongs to one of the classes that a source may be made of. -/
inductive Lexical : Piece → Prop where
  | newline : Lexical newline
  /-- A run of blanks, carriage returns and tabs. -/
  | blanks {run : List Char} (hne : run ≠ []) (h : ∀ c ∈ run, c = ' ' ∨ c = '\r' ∨ c = '\t') :
      Lexical (blanks run)
  /-- Two slashes and what follows them on the line. -/
  | comment {body : List Char} (h : '\n' ∉ body) : Lexical (comment body)
  /-- A text between quotation marks. -/
  | text {inner : List Char} (h : Text.quotationMark ∉ inner) : Lexical (text inner)
  /-- Digits, which a point and more digits may follow. -/
  | numeral {whole fraction : List Char} (hne : whole ≠ [])
      (hw : ∀ c ∈ whole, Decimal.isDigit c = true) (hf : ∀ c ∈ fraction, Decimal.isDigit c = true) :
      Lexical (numeral whole fraction)
  /-- A letter or underscore, which letters, underscores and digits may follow. -/
  | word {c : Char} {letters : List Char} (hc : isLetter c = true)
      (h : ∀ d ∈ letters, isWordChar d = true) : Lexical (word (c :: letters))
  | sign {chars : List Char} {kind : TokenKind} (h : (chars, kind) ∈ signs) :
      Lexical (sign chars kind)

/-- A lexical piece stands at the front of a text. -/
def Starts (p : Piece) (cs : List Char) : Prop := p.Lexical ∧ p.chars <+: cs

/-- The piece that maximal munch cuts off the front of a text. -/
inductive CutOff (cs : List Char) : Piece → Prop where
  /-- The longest lexical piece that stands there. -/
  | longest {p : Piece} (h : p.Starts cs)
      (hmax : ∀ q : Piece, q.Starts cs → q.chars.length ≤ p.chars.length) : CutOff cs p
  /-- All that is left, if it starts with a quotation mark and with no lexical piece. -/
  | openText {inner : List Char} (hcs : cs = Text.quotationMark :: inner)
      (hnone : ∀ q : Piece, ¬ q.Starts cs) : CutOff cs (openText inner)
  /-- One character, where no lexical piece starts. -/
  | stray {c : Char} {rest : List Char} (hcs : cs = c :: rest) (hc : c ≠ Text.quotationMark)
      (hnone : ∀ q : Piece, ¬ q.Starts cs) : CutOff cs (stray c)

/-- The piece belongs to no class. -/
def isFault : Piece → Bool
  | openText _ | stray _ => true
  | _ => false

/-! ## Texts that start with a piece of a class -/

theorem isGap_iff {c : Char} : isGap c = true ↔ c = ' ' ∨ c = '\r' ∨ c = '\t' := by
  simp [isGap, or_assoc]

theorem isRemark_of_not_mem {body : List Char} (h : '\n' ∉ body) : ∀ d ∈ body, isRemark d = true := by
  intro d hd
  have hne : d ≠ '\n' := by
    rintro rfl
    exact h hd
  simpa [isRemark] using hne

theorem isInner_of_not_mem {inner : List Char} (h : Text.quotationMark ∉ inner) :
    ∀ d ∈ inner, isInner d = true := by
  intro d hd
  have hne : d ≠ Text.quotationMark := by
    rintro rfl
    exact h hd
  simpa [isInner] using hne

/-- A digit begins no line, gap or text. -/
theorem first_of_digit {c : Char} (hc : Decimal.isDigit c = true) (rest : List Char) :
    first c rest = afterDigit c rest := by
  have hline : c ≠ '\n' := by
    rintro rfl
    exact absurd hc (by decide)
  have hgap : ¬ isGap c = true := by
    intro h
    rcases isGap_iff.mp h with rfl | rfl | rfl <;> exact absurd hc (by decide)
  have hquote : c ≠ Text.quotationMark := by
    rintro rfl
    exact absurd hc (by decide)
  rw [first, if_neg hline, if_neg hgap, if_neg hquote, if_pos hc]

/-- A letter begins a word, and nothing else. -/
theorem first_of_letter {c : Char} (hc : isLetter c = true) (rest : List Char) :
    first c rest = (word (c :: rest.takeWhile isWordChar), rest.dropWhile isWordChar) := by
  have hline : c ≠ '\n' := by
    rintro rfl
    exact absurd hc (by decide)
  have hgap : ¬ isGap c = true := by
    intro h
    rcases isGap_iff.mp h with rfl | rfl | rfl <;> exact absurd hc (by decide)
  have hquote : c ≠ Text.quotationMark := by
    rintro rfl
    exact absurd hc (by decide)
  have hdigit : ¬ Decimal.isDigit c = true := by
    intro h
    simp only [Decimal.isDigit, Bool.and_eq_true, decide_eq_true_eq] at h
    simp only [isLetter, Bool.or_eq_true, Bool.and_eq_true, decide_eq_true_eq, beq_iff_eq] at hc
    rcases hc with (⟨hA, -⟩ | ⟨ha, -⟩) | rfl
    · exact absurd (Char.le_trans hA h.2) (by decide)
    · exact absurd (Char.le_trans ha h.2) (by decide)
    · exact absurd h.2 (by decide)
  rw [first, if_neg hline, if_neg hgap, if_neg hquote, if_neg hdigit, if_pos hc]

/-- The character of an operator begins no piece of another class but a comment. -/
theorem first_of_signKind {c : Char} {kind : TokenKind} (h : signKind? c = some kind)
    (rest : List Char) : first c rest = afterSign c rest := by
  unfold signKind? at h
  split at h <;> first | rfl | cases h

/-- An operator of two characters begins with one of one character. -/
theorem signKind_of_signEqualKind {c : Char} {kind : TokenKind} (h : signEqualKind? c = some kind) :
    ∃ plain, signKind? c = some plain := by
  unfold signEqualKind? at h
  split at h <;> first | exact ⟨_, rfl⟩ | cases h

theorem mem_singleSigns_iff {chars : List Char} {kind : TokenKind} :
    (chars, kind) ∈ singleSigns ↔ ∃ c, chars = [c] ∧ signKind? c = some kind := by
  constructor
  · intro h
    have hall : ∀ s ∈ singleSigns, s.1 = [s.1.headD ' '] ∧ signKind? (s.1.headD ' ') = some s.2 := by
      decide
    exact ⟨chars.headD ' ', hall _ h⟩
  · rintro ⟨c, rfl, h⟩
    unfold signKind? at h
    split at h <;> cases h <;> decide

theorem mem_doubleSigns_iff {chars : List Char} {kind : TokenKind} :
    (chars, kind) ∈ doubleSigns ↔ ∃ c, chars = [c, '='] ∧ signEqualKind? c = some kind := by
  constructor
  · intro h
    have hall : ∀ s ∈ doubleSigns,
        s.1 = [s.1.headD ' ', '='] ∧ signEqualKind? (s.1.headD ' ') = some s.2 := by decide
    exact ⟨chars.headD ' ', hall _ h⟩
  · rintro ⟨c, rfl, h⟩
    unfold signEqualKind? at h
    split at h <;> cases h <;> decide

/-- The operators are those of two characters and those of one. -/
theorem mem_signs_iff {chars : List Char} {kind : TokenKind} :
    (chars, kind) ∈ signs ↔
      (∃ c, chars = [c, '='] ∧ signEqualKind? c = some kind) ∨
        ∃ c, chars = [c] ∧ signKind? c = some kind := by
  rw [signs, List.mem_append, mem_doubleSigns_iff, mem_singleSigns_iff]

theorem first_of_gap {c : Char} (hc : isGap c = true) (rest : List Char) :
    first c rest = (blanks (c :: rest.takeWhile isGap), rest.dropWhile isGap) := by
  have hline : c ≠ '\n' := by
    rintro rfl
    exact absurd hc (by decide)
  rw [first, if_neg hline, if_pos hc]

/-- A text is cut behind the quotation mark that closes it. -/
theorem first_text {inner : List Char} (h : Text.quotationMark ∉ inner) (more : List Char) :
    first Text.quotationMark (inner ++ Text.quotationMark :: more) = (text inner, more) := by
  have hinner := isInner_of_not_mem h
  have hquote : isInner Text.quotationMark = false := rfl
  have htake : (inner ++ Text.quotationMark :: more).takeWhile isInner = inner := by
    rw [List.takeWhile_append_of_pos hinner, List.takeWhile_cons, if_neg (by simp [hquote]),
      List.append_nil]
  have hdrop : (inner ++ Text.quotationMark :: more).dropWhile isInner =
      Text.quotationMark :: more := by
    rw [List.dropWhile_append_of_pos hinner, List.dropWhile_cons, if_neg (by simp [hquote])]
  show afterQuote _ = _
  rw [afterQuote, hdrop, htake]

/-- A comment is cut at the end of its line. -/
theorem first_comment {body : List Char} (h : '\n' ∉ body) (more : List Char) :
    first '/' ('/' :: (body ++ more)) =
      (comment (body ++ more.takeWhile isRemark), more.dropWhile isRemark) := by
  have hbody := isRemark_of_not_mem h
  show (comment ((body ++ more).takeWhile isRemark), (body ++ more).dropWhile isRemark) = _
  rw [List.takeWhile_append_of_pos hbody, List.dropWhile_append_of_pos hbody]

/-- Digits are cut behind the last of them or further on. -/
theorem first_digits {c : Char} {ds : List Char} (hc : Decimal.isDigit c = true)
    (hds : ∀ d ∈ ds, Decimal.isDigit d = true) (more : List Char) :
    ∃ fraction left, first c (ds ++ more) =
      (numeral (c :: (ds ++ more.takeWhile Decimal.isDigit)) fraction, left) := by
  rw [first_of_digit hc, afterDigit, List.takeWhile_append_of_pos hds]
  split
  · split
    · exact ⟨_, _, rfl⟩
    · exact ⟨_, _, rfl⟩
  · exact ⟨_, _, rfl⟩

/-- Digits with a point and more digits are cut behind the last of them or further on. -/
theorem first_fraction {c e : Char} {ds es : List Char} (hc : Decimal.isDigit c = true)
    (hds : ∀ d ∈ ds, Decimal.isDigit d = true) (he : Decimal.isDigit e = true)
    (hes : ∀ d ∈ es, Decimal.isDigit d = true) (more : List Char) :
    first c (ds ++ '.' :: e :: (es ++ more)) =
      (numeral (c :: ds) (e :: (es ++ more.takeWhile Decimal.isDigit)),
        more.dropWhile Decimal.isDigit) := by
  have hpoint : Decimal.isDigit '.' = false := by decide
  have htake : (ds ++ '.' :: e :: (es ++ more)).takeWhile Decimal.isDigit = ds := by
    rw [List.takeWhile_append_of_pos hds, List.takeWhile_cons, if_neg (by simp [hpoint]),
      List.append_nil]
  have hdrop : (ds ++ '.' :: e :: (es ++ more)).dropWhile Decimal.isDigit =
      '.' :: e :: (es ++ more) := by
    rw [List.dropWhile_append_of_pos hds, List.dropWhile_cons, if_neg (by simp [hpoint])]
  rw [first_of_digit hc, afterDigit, htake, hdrop]
  simp only [he, if_true, List.takeWhile_append_of_pos hes, List.dropWhile_append_of_pos hes]

/-- What is cut off behind a character that is neither blank nor digit, letter or quotation mark. -/
theorem afterSign_cases (c : Char) (rest : List Char) :
    (afterSign c rest).1 = single c ∨
      (∃ left : List Char, (afterSign c rest).1 = comment (left.takeWhile isRemark)) ∨
      ∃ kind, signEqualKind? c = some kind ∧ (afterSign c rest).1 = sign [c, '='] kind := by
  unfold afterSign
  split
  · exact .inl rfl
  · split
    · exact .inr (.inl ⟨_, rfl⟩)
    · split
      · next hd =>
        split
        · next kind hkind => exact .inr (.inr ⟨kind, hkind, by rw [hd]⟩)
        · exact .inl rfl
      · exact .inl rfl

theorem isFault_single {c : Char} : (single c).isFault = (signKind? c).isNone := by
  unfold single
  cases signKind? c <;> rfl

/-- A character that is an operator is no stray one. -/
theorem isFault_afterSign {c : Char} {kind : TokenKind} (h : signKind? c = some kind)
    (rest : List Char) : (afterSign c rest).1.isFault = false := by
  rcases afterSign_cases c rest with hp | ⟨left, hp⟩ | ⟨kind, -, hp⟩
  · rw [hp, isFault_single, h]
    rfl
  · rw [hp]
    rfl
  · rw [hp]
    rfl

/-! ## What is cut off is longest -/

/-- The characters of `q` are `c :: cs`, a text that starts with them is cut behind them or further
on, and they are cut as `q` if nothing follows. -/
structure Reaches (q : Piece) (c : Char) (cs : List Char) : Prop where
  chars_eq : q.chars = c :: cs
  length_le (more : List Char) : q.chars.length ≤ (first c (cs ++ more)).1.chars.length
  isFault_eq (more : List Char) : (first c (cs ++ more)).1.isFault = false
  alone : first c cs = (q, [])

theorem reaches_blanks {c : Char} {run : List Char} (hc : isGap c = true)
    (hrun : ∀ d ∈ run, isGap d = true) : (blanks (c :: run)).Reaches c run where
  chars_eq := rfl
  length_le more := by
    rw [first_of_gap hc, List.takeWhile_append_of_pos hrun]
    simp [chars]
  isFault_eq more := by rw [first_of_gap hc]; rfl
  alone := by
    rw [first_of_gap hc, List.takeWhile_eq_self_iff.mpr hrun, List.dropWhile_eq_nil_iff.mpr hrun]

/-- A text that starts with a comment is cut at the end of the line or further on. -/
theorem reaches_comment {body : List Char} (h : '\n' ∉ body) :
    (comment body).Reaches '/' ('/' :: body) where
  chars_eq := rfl
  length_le more := by
    rw [List.cons_append, first_comment h]
    simp [chars]
  isFault_eq more := by rw [List.cons_append, first_comment h]; rfl
  alone := by
    have halone := first_comment h []
    simpa using halone

theorem reaches_text {inner : List Char} (h : Text.quotationMark ∉ inner) :
    (text inner).Reaches Text.quotationMark (inner ++ [Text.quotationMark]) where
  chars_eq := rfl
  length_le more := by
    rw [List.append_assoc, List.singleton_append, first_text h]
  isFault_eq more := by rw [List.append_assoc, List.singleton_append, first_text h]; rfl
  alone := first_text h []

/-- A text that starts with digits is cut behind them or further on. -/
theorem reaches_digits {c : Char} {ds : List Char} (hc : Decimal.isDigit c = true)
    (hds : ∀ d ∈ ds, Decimal.isDigit d = true) : (numeral (c :: ds) []).Reaches c ds where
  chars_eq := rfl
  length_le more := by
    obtain ⟨fraction, left, hfirst⟩ := first_digits hc hds more
    rw [hfirst]
    cases fraction <;> simp [chars]
  isFault_eq more := by
    obtain ⟨fraction, left, hfirst⟩ := first_digits hc hds more
    rw [hfirst]
    rfl
  alone := by
    rw [first_of_digit hc, afterDigit, List.takeWhile_eq_self_iff.mpr hds,
      List.dropWhile_eq_nil_iff.mpr hds]

/-- If a fraction follows, it is cut behind the fraction or further on. -/
theorem reaches_fraction {c e : Char} {ds es : List Char} (hc : Decimal.isDigit c = true)
    (hds : ∀ d ∈ ds, Decimal.isDigit d = true) (he : Decimal.isDigit e = true)
    (hes : ∀ d ∈ es, Decimal.isDigit d = true) :
    (numeral (c :: ds) (e :: es)).Reaches c (ds ++ '.' :: e :: es) where
  chars_eq := rfl
  length_le more := by
    rw [List.append_assoc, List.cons_append, List.cons_append, first_fraction hc hds he hes]
    simp [chars]
  isFault_eq more := by
    rw [List.append_assoc, List.cons_append, List.cons_append, first_fraction hc hds he hes]
    rfl
  alone := by
    have halone := first_fraction hc hds he hes []
    simpa using halone

/-- A text that starts with a word is cut behind it or further on. -/
theorem reaches_word {c : Char} {letters : List Char} (hc : isLetter c = true)
    (h : ∀ d ∈ letters, isWordChar d = true) : (word (c :: letters)).Reaches c letters where
  chars_eq := rfl
  length_le more := by
    rw [first_of_letter hc, List.takeWhile_append_of_pos h]
    simp [chars]
  isFault_eq more := by rw [first_of_letter hc]; rfl
  alone := by
    rw [first_of_letter hc, List.takeWhile_eq_self_iff.mpr h, List.dropWhile_eq_nil_iff.mpr h]

theorem reaches_sign {c : Char} {kind : TokenKind} (h : signKind? c = some kind) :
    (sign [c] kind).Reaches c [] where
  chars_eq := rfl
  length_le more := List.length_pos_iff.mpr (first_chars_ne_nil c _)
  isFault_eq more := by
    rw [first_of_signKind h]
    exact isFault_afterSign h _
  alone := by
    rw [first_of_signKind h, afterSign, single, h]

theorem reaches_signEqual {c : Char} {kind : TokenKind} (h : signEqualKind? c = some kind) :
    (sign [c, '='] kind).Reaches c ['='] := by
  obtain ⟨plain, hplain⟩ := signKind_of_signEqualKind h
  have hfirst : ∀ more, first c ('=' :: more) = (sign [c, '='] kind, more) := by
    intro more
    have hcomment : ¬ (c = '/' ∧ '=' = '/') := by simp
    rw [first_of_signKind hplain, afterSign, if_neg hcomment, if_pos rfl, h]
  exact
    { chars_eq := rfl
      length_le := fun more => by rw [List.singleton_append, hfirst]
      isFault_eq := fun more => by rw [List.singleton_append, hfirst]; rfl
      alone := hfirst [] }

/-- Whatever lexical piece a text starts with, it is cut behind it or further on. -/
theorem reaches_of_lexical {q : Piece} (hq : q.Lexical) : ∃ c cs, q.Reaches c cs := by
  cases hq with
  | newline => exact ⟨'\n', [], ⟨rfl, fun _ => Nat.le_refl _, fun _ => rfl, rfl⟩⟩
  | @blanks run hne hrun =>
    obtain ⟨c, cs, rfl⟩ := List.exists_cons_of_ne_nil hne
    obtain ⟨hc, hcs⟩ := List.forall_mem_cons.mp fun d hd => isGap_iff.mpr (hrun d hd)
    exact ⟨c, cs, reaches_blanks hc hcs⟩
  | comment hbody => exact ⟨_, _, reaches_comment hbody⟩
  | text hinner => exact ⟨_, _, reaches_text hinner⟩
  | @numeral whole fraction hne hwhole hfraction =>
    obtain ⟨c, cs, rfl⟩ := List.exists_cons_of_ne_nil hne
    obtain ⟨hc, hcs⟩ := List.forall_mem_cons.mp hwhole
    cases fraction with
    | nil => exact ⟨c, cs, reaches_digits hc hcs⟩
    | cons e es =>
      obtain ⟨he, hes⟩ := List.forall_mem_cons.mp hfraction
      exact ⟨c, _, reaches_fraction hc hcs he hes⟩
  | word hc hletters => exact ⟨_, _, reaches_word hc hletters⟩
  | sign hmem =>
    rcases mem_signs_iff.mp hmem with ⟨c, rfl, hc⟩ | ⟨c, rfl, hc⟩
    · exact ⟨c, _, reaches_signEqual hc⟩
    · exact ⟨c, _, reaches_sign hc⟩

/-- Lexical pieces with the same characters are the same. -/
theorem Lexical.eq_of_chars {p q : Piece} (hp : p.Lexical) (hq : q.Lexical)
    (h : p.chars = q.chars) : p = q := by
  obtain ⟨c, cs, hp⟩ := reaches_of_lexical hp
  obtain ⟨d, ds, hq⟩ := reaches_of_lexical hq
  have hchars : c :: cs = d :: ds := by rw [← hp.chars_eq, h, hq.chars_eq]
  cases hchars
  have hpieces : (p, ([] : List Char)) = (q, []) := hp.alone.symm.trans hq.alone
  exact congrArg Prod.fst hpieces

/-- A text that starts with a lexical piece is cut behind that piece or further on. -/
theorem Starts.reaches {q : Piece} {c : Char} {rest : List Char} (h : q.Starts (c :: rest)) :
    q.chars.length ≤ (first c rest).1.chars.length ∧ (first c rest).1.isFault = false := by
  obtain ⟨hq, more, hmore⟩ := h
  obtain ⟨d, ds, hq⟩ := reaches_of_lexical hq
  have hcs : d :: (ds ++ more) = c :: rest := by rw [← hmore, hq.chars_eq]; rfl
  cases hcs
  exact ⟨hq.length_le more, hq.isFault_eq more⟩

theorem lexical_afterDigit {c : Char} (hc : Decimal.isDigit c = true) (rest : List Char) :
    (afterDigit c rest).1.Lexical := by
  have hwhole : ∀ d ∈ c :: rest.takeWhile Decimal.isDigit, Decimal.isDigit d = true :=
    List.forall_mem_cons.mpr ⟨hc, fun d hd => List.mem_takeWhile_imp hd⟩
  unfold afterDigit
  split
  · next d left _ =>
    split
    · next hd =>
      exact .numeral (List.cons_ne_nil _ _) hwhole
        (List.forall_mem_cons.mpr ⟨hd, fun e he => List.mem_takeWhile_imp he⟩)
    · exact .numeral (List.cons_ne_nil _ _) hwhole (by simp)
  · exact .numeral (List.cons_ne_nil _ _) hwhole (by simp)

/-- What starts with an operator is cut behind a lexical piece, unless the character is a stray one.
-/
theorem lexical_afterSign {c : Char} {rest : List Char} (h : (afterSign c rest).1.isFault = false) :
    (afterSign c rest).1.Lexical := by
  rcases afterSign_cases c rest with hp | ⟨left, hp⟩ | ⟨kind, hkind, hp⟩
  · rw [hp, isFault_single, Option.isNone_eq_false_iff] at h
    obtain ⟨kind, hkind⟩ := Option.isSome_iff_exists.mp h
    rw [hp, single, hkind]
    exact .sign (mem_signs_iff.mpr (.inr ⟨c, rfl, hkind⟩))
  · rw [hp]
    refine .comment fun hmem => ?_
    have hremark := List.mem_takeWhile_imp hmem
    exact absurd hremark (by decide)
  · rw [hp]
    exact .sign (mem_signs_iff.mpr (.inl ⟨c, rfl, hkind⟩))

/-- Whatever is cut off is lexical unless it is a fault. -/
theorem lexical_first {c : Char} {rest : List Char} (h : (first c rest).1.isFault = false) :
    (first c rest).1.Lexical := by
  unfold first at h ⊢
  split
  · exact .newline
  split
  · next hc =>
    refine .blanks (List.cons_ne_nil _ _) fun d hd => isGap_iff.mp ?_
    rcases List.mem_cons.mp hd with rfl | hd
    · exact hc
    · exact List.mem_takeWhile_imp hd
  split
  · next h₁ h₂ h₃ =>
    rw [if_neg h₁, if_neg h₂, if_pos h₃] at h
    unfold afterQuote at h ⊢
    split at h
    · cases h
    · next hdrop =>
      refine .text fun hmem => ?_
      have hinner := List.mem_takeWhile_imp hmem
      exact absurd hinner (by decide)
  split
  · next hc => exact lexical_afterDigit hc rest
  split
  · next hc => exact .word hc fun d hd => List.mem_takeWhile_imp hd
  · next h₁ h₂ h₃ h₄ h₅ =>
    rw [if_neg h₁, if_neg h₂, if_neg h₃, if_neg h₄, if_neg h₅] at h
    exact lexical_afterSign h

theorem afterQuote_of_fault {rest : List Char} (h : (afterQuote rest).1.isFault = true) :
    (afterQuote rest).1 = openText rest := by
  unfold afterQuote at h ⊢
  split at h
  · next hdrop =>
    rw [List.takeWhile_eq_self_iff.mpr (List.dropWhile_eq_nil_iff.mp hdrop)]
  · cases h

theorem afterSign_of_fault {c : Char} {rest : List Char} (h : (afterSign c rest).1.isFault = true) :
    (afterSign c rest).1 = stray c := by
  rcases afterSign_cases c rest with hp | ⟨left, hp⟩ | ⟨kind, -, hp⟩
  · rw [hp, isFault_single, Option.isNone_iff_eq_none] at h
    rw [hp, single, h]
  · rw [hp] at h
    cases h
  · rw [hp] at h
    cases h

/-- What is cut off is a fault only where all that is left is an unclosed text, or one character. -/
theorem first_of_fault {c : Char} {rest : List Char} (h : (first c rest).1.isFault = true) :
    (c = Text.quotationMark ∧ (first c rest).1 = openText rest) ∨
      (c ≠ Text.quotationMark ∧ (first c rest).1 = stray c) := by
  by_cases hquote : c = Text.quotationMark
  · subst hquote
    exact .inl ⟨rfl, afterQuote_of_fault h⟩
  · refine .inr ⟨hquote, ?_⟩
    unfold first at h ⊢
    rw [if_neg hquote] at h ⊢
    split at h
    · cases h
    split at h
    · cases h
    split at h
    · unfold afterDigit at h
      repeat' split at h
      all_goals cases h
    split at h
    · cases h
    · next h₁ h₂ h₃ h₄ =>
      rw [if_neg h₁, if_neg h₂, if_neg h₃, if_neg h₄]
      exact afterSign_of_fault h

/-- Scanning cuts off what maximal munch cuts off. -/
theorem cutOff_first (c : Char) (rest : List Char) : CutOff (c :: rest) (first c rest).1 := by
  cases h : (first c rest).1.isFault with
  | false =>
    have hprefix : (first c rest).1.chars <+: c :: rest := ⟨_, first_chars c rest⟩
    exact .longest ⟨lexical_first h, hprefix⟩ fun q hq => hq.reaches.1
  | true =>
    have hnone : ∀ q : Piece, ¬ q.Starts (c :: rest) := by
      intro q hq
      rw [hq.reaches.2] at h
      cases h
    rcases first_of_fault h with ⟨hc, hp⟩ | ⟨hc, hp⟩
    · rw [hp]
      exact .openText (by rw [hc]) hnone
    · rw [hp]
      exact .stray rfl hc hnone

/-- Nothing is cut off an empty text. -/
theorem not_cutOff_nil (p : Piece) : ¬ p.CutOff [] := by
  intro h
  cases h with
  | longest h _ =>
    obtain ⟨c, cs, hreaches⟩ := reaches_of_lexical h.1
    have hprefix := h.2
    rw [hreaches.chars_eq, List.prefix_nil] at hprefix
    cases hprefix
  | openText h _ => cases h
  | stray h _ _ => cases h

/-- Maximal munch leaves no choice. -/
theorem CutOff.unique {cs : List Char} {p q : Piece} (hp : CutOff cs p) (hq : CutOff cs q) :
    p = q := by
  cases hp with
  | longest hp hpmax =>
    cases hq with
    | longest hq hqmax =>
      -- each of the two is a longest piece, so that they are equally long
      have hlength := Nat.le_antisymm (hqmax _ hp) (hpmax _ hq)
      have hchars := List.IsPrefix.eq_of_length (List.prefix_of_prefix_length_le hp.2 hq.2
        (Nat.le_of_eq hlength)) hlength
      exact hp.1.eq_of_chars hq.1 hchars
    | openText _ hnone => exact absurd hp (hnone _)
    | stray _ _ hnone => exact absurd hp (hnone _)
  | openText hcs hnone =>
    cases hq with
    | longest hq _ => exact absurd hq (hnone _)
    | openText hcs' _ =>
      rw [hcs] at hcs'
      cases hcs'
      rfl
    | stray hcs' hc _ =>
      rw [hcs] at hcs'
      cases hcs'
      exact absurd rfl hc
  | stray hcs hc hnone =>
    cases hq with
    | longest hq _ => exact absurd hq (hnone _)
    | openText hcs' _ =>
      rw [hcs] at hcs'
      cases hcs'
      exact absurd rfl hc
    | stray hcs' _ _ =>
      rw [hcs] at hcs'
      cases hcs'
      rfl

end Piece

/-! ## Splitting a whole text -/

/-- The pieces into which maximal munch splits a text. -/
inductive Splits : List Char → List Piece → Prop where
  | nil : Splits [] []
  | cons {p : Piece} {rest : List Char} {ps : List Piece} (h : p.CutOff (p.chars ++ rest))
      (hrest : Splits rest ps) : Splits (p.chars ++ rest) (p :: ps)

/-- Scanning splits a source by maximal munch. -/
theorem splits_pieces (cs : List Char) : Splits cs (pieces cs) := by
  fun_induction pieces cs with
  | case1 => exact .nil
  | case2 c rest ih =>
    have hcut := Piece.cutOff_first c rest
    have hchars := Piece.first_chars c rest
    rw [← hchars] at hcut
    have hsplits := Splits.cons hcut ih
    rwa [hchars] at hsplits

/-- Maximal munch splits a text in one way only, into the pieces that scanning computes. -/
theorem splits_iff {cs : List Char} {ps : List Piece} : Splits cs ps ↔ ps = pieces cs := by
  constructor
  · intro h
    induction h with
    | nil => rw [pieces]
    | @cons p rest ps hcut _ ih =>
      cases hcs : p.chars ++ rest with
      | nil =>
        rw [hcs] at hcut
        exact absurd hcut (Piece.not_cutOff_nil p)
      | cons c cs =>
        rw [hcs] at hcut
        obtain rfl := hcut.unique (Piece.cutOff_first c cs)
        have hrest : rest = (Piece.first c cs).2 :=
          List.append_cancel_left (hcs.trans (Piece.first_chars c cs).symm)
        rw [pieces_cons, ih, hrest]
  · rintro rfl
    exact splits_pieces cs

end LoxScript
