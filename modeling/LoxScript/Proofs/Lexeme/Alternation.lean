import LoxScript.Proofs.Lexeme.Munch

/-!
# Ordered alternatives

A scanner can also be given as a list of patterns that are tried one after the other, the first one
that matches being taken without regard to the others (`Piece.alternatives`). This finds the longest
piece only if the patterns stand in a suitable order: a comment before the slash, a text before the
quotation mark that is never closed, `!=` before `!`, and any other character at the end.

`alternation_eq_some_iff` says that they do: whatever the text, the first pattern that matches finds
the piece that maximal munch cuts off.
-/

namespace LoxScript

namespace Piece

/-- A pattern: the piece that it finds at the front of a text, if it matches there. -/
abbrev Pattern := List Char → Option Piece

namespace Pattern

/-- A character, and a pattern for what follows it. -/
def behind (c : Char) (p : Pattern) : Pattern
  | [] => none
  | d :: rest => if d = c then p rest else none

/-- A line feed. -/
def newline : Pattern := behind '\n' fun _ => some .newline

/-- At least one blank, carriage return or tab, and as many as there are. -/
def gap : Pattern := fun cs =>
  match cs.takeWhile isGap with
  | [] => none
  | run => some (.blanks run)

/-- Two slashes, and whatever follows on the line. -/
def comment : Pattern :=
  behind '/' (behind '/' fun rest => some (.comment (rest.takeWhile isRemark)))

/-- A quotation mark, and whatever follows up to the next one. -/
def closedText : Pattern :=
  behind Text.quotationMark fun rest =>
    match rest.dropWhile isInner with
    | [] => none
    | _ :: _ => some (.text (rest.takeWhile isInner))

/-- A quotation mark, and whatever follows up to the end, if there is no other one. -/
def openText : Pattern :=
  behind Text.quotationMark fun rest =>
    match rest.dropWhile isInner with
    | [] => some (.openText (rest.takeWhile isInner))
    | _ :: _ => none

/-- The digits behind a point, if there is a point. -/
def fraction : List Char → List Char
  | '.' :: rest => rest.takeWhile Decimal.isDigit
  | _ => []

/-- At least one digit, and a point and at least one digit if they follow. -/
def numeral : Pattern := fun cs =>
  match cs.takeWhile Decimal.isDigit with
  | [] => none
  | whole => some (.numeral whole (fraction (cs.dropWhile Decimal.isDigit)))

/-- A letter or underscore, and as many letters, underscores and digits as follow. -/
def word : Pattern
  | [] => none
  | c :: rest => if isLetter c then some (.word (c :: rest.takeWhile isWordChar)) else none

/-- An operator, spelled out. -/
def spelled (s : List Char × TokenKind) : Pattern := fun cs =>
  if s.1.isPrefixOf cs then some (.sign s.1 s.2) else none

/-- Any character that ends no line. -/
def other : Pattern
  | [] => none
  | c :: _ => if c = '\n' then none else some (.stray c)

end Pattern

/-- The patterns in the order in which they are tried. -/
def alternatives : List Pattern :=
  [Pattern.newline, Pattern.gap, Pattern.comment, Pattern.closedText, Pattern.openText,
    Pattern.numeral, Pattern.word] ++ signs.map Pattern.spelled ++ [Pattern.other]

/-- The piece that the first pattern finds of those that match at the front of a text. -/
def alternation (cs : List Char) : Option Piece := alternatives.findSome? (· cs)

/-! ## Operators -/

/-- An operator that does not stand at the front does not match. -/
theorem spelled_eq_none {s : List Char × TokenKind} {cs : List Char} (h : ¬ s.1 <+: cs) :
    Pattern.spelled s cs = none := by
  rw [Pattern.spelled, if_neg (by rwa [List.isPrefixOf_iff_prefix])]

/-- An operator that does, matches. -/
theorem spelled_eq_some {s : List Char × TokenKind} {cs : List Char} (h : s.1 <+: cs) :
    Pattern.spelled s cs = some (sign s.1 s.2) := by
  rw [Pattern.spelled, if_pos (by rwa [List.isPrefixOf_iff_prefix])]

theorem spelled_none {ss : List (List Char × TokenKind)} {cs : List Char}
    (h : ∀ s ∈ ss, ¬ s.1 <+: cs) : (ss.map Pattern.spelled).findSome? (· cs) = none := by
  rw [List.findSome?_map, List.findSome?_eq_none_iff]
  intro s hs
  exact spelled_eq_none (h s hs)

/-- The order of operators does not matter if only one of them matches. -/
theorem spelled_some {ss : List (List Char × TokenKind)} {s : List Char × TokenKind}
    {cs : List Char} (hs : s ∈ ss) (hp : s.1 <+: cs) (huniq : ∀ t ∈ ss, t.1 <+: cs → t = s) :
    (ss.map Pattern.spelled).findSome? (· cs) = some (sign s.1 s.2) := by
  induction ss with
  | nil => cases hs
  | cons t ss ih =>
    rw [List.map_cons, List.findSome?_cons]
    by_cases ht : t.1 <+: cs
    · obtain rfl := huniq t (by simp) ht
      rw [spelled_eq_some ht]
    · rw [spelled_eq_none ht]
      refine ih ?_ fun u hu => huniq u (by simp [hu])
      rcases List.mem_cons.mp hs with rfl | hs
      · exact absurd hp ht
      · exact hs

section

variable {c : Char} {rest : List Char}

theorem doubleSigns_none (h : rest.head? = some '=' → signEqualKind? c = none) :
    (doubleSigns.map Pattern.spelled).findSome? (· (c :: rest)) = none := by
  refine spelled_none fun s hs hp => ?_
  obtain ⟨chars, kind⟩ := s
  obtain ⟨d, rfl, hd⟩ := mem_doubleSigns_iff.mp hs
  obtain ⟨left, hleft⟩ := hp
  cases hleft
  rw [h rfl] at hd
  cases hd

/-- Operators of two characters are tried first, so that the longer one is found. -/
theorem doubleSigns_some {kind : TokenKind} (h : signEqualKind? c = some kind) :
    (doubleSigns.map Pattern.spelled).findSome? (· (c :: '=' :: rest)) =
      some (sign [c, '='] kind) := by
  refine spelled_some (s := ([c, '='], kind)) (mem_doubleSigns_iff.mpr ⟨c, rfl, h⟩) ⟨rest, rfl⟩
    fun t ht hp => ?_
  obtain ⟨chars, kind'⟩ := t
  obtain ⟨d, rfl, hd⟩ := mem_doubleSigns_iff.mp ht
  obtain ⟨left, hleft⟩ := hp
  cases hleft
  rw [h] at hd
  cases hd
  rfl

/-- Where no operator of two characters stands, one of one character matches, or any character. -/
theorem singleSigns_eq (hline : c ≠ '\n') :
    (singleSigns.map Pattern.spelled ++ [Pattern.other]).findSome? (· (c :: rest)) =
      some (single c) := by
  rw [List.findSome?_append, single]
  cases h : signKind? c with
  | some kind =>
    have hsome : (singleSigns.map Pattern.spelled).findSome? (· (c :: rest)) =
        some (sign [c] kind) := by
      refine spelled_some (s := ([c], kind)) (mem_singleSigns_iff.mpr ⟨c, rfl, h⟩) ⟨rest, rfl⟩
        fun t ht hp => ?_
      obtain ⟨chars, kind'⟩ := t
      obtain ⟨d, rfl, hd⟩ := mem_singleSigns_iff.mp ht
      obtain ⟨left, hleft⟩ := hp
      cases hleft
      rw [h] at hd
      cases hd
      rfl
    rw [hsome]
    rfl
  | none =>
    rw [spelled_none]
    · simp [Pattern.other, hline]
    · rintro ⟨chars, kind⟩ hs hp
      obtain ⟨d, rfl, hd⟩ := mem_singleSigns_iff.mp hs
      obtain ⟨left, hleft⟩ := hp
      cases hleft
      rw [h] at hd
      cases hd

/-- The operators in their order find the longest one. -/
theorem signs_eq (hline : c ≠ '\n') (hcomment : Pattern.comment (c :: rest) = none) :
    (signs.map Pattern.spelled ++ [Pattern.other]).findSome? (· (c :: rest)) =
      some (afterSign c rest).1 := by
  rw [signs, List.map_append, List.append_assoc, List.findSome?_append, singleSigns_eq hline]
  cases rest with
  | nil =>
    rw [doubleSigns_none (by simp)]
    rfl
  | cons d left =>
    have hslash : ¬ (c = '/' ∧ d = '/') := by
      rintro ⟨rfl, rfl⟩
      cases hcomment
    rw [afterSign, if_neg hslash]
    by_cases hd : d = '='
    · subst hd
      rw [if_pos rfl]
      cases hkind : signEqualKind? c with
      | some kind =>
        rw [doubleSigns_some hkind]
        rfl
      | none =>
        rw [doubleSigns_none fun _ => hkind]
        rfl
    · rw [if_neg hd, doubleSigns_none (by simp [hd])]
      rfl

/-! ## Patterns that do not match -/

theorem behind_eq (p : Pattern) : Pattern.behind c p (c :: rest) = p rest := if_pos rfl

theorem behind_eq_none {d : Char} (h : c ≠ d) (p : Pattern) :
    Pattern.behind d p (c :: rest) = none := if_neg h

theorem gap_eq_none (h : ¬ isGap c = true) : Pattern.gap (c :: rest) = none := by
  rw [Pattern.gap, List.takeWhile_cons, if_neg h]

theorem numeral_eq_none (h : ¬ Decimal.isDigit c = true) : Pattern.numeral (c :: rest) = none := by
  rw [Pattern.numeral, List.takeWhile_cons, if_neg h]

theorem word_eq_none (h : ¬ isLetter c = true) : Pattern.word (c :: rest) = none := if_neg h

end

/-! ## The first pattern that matches -/

/-- The pattern of numerals finds the longest one. -/
theorem numeral_eq {c : Char} (hc : Decimal.isDigit c = true) (rest : List Char) :
    Pattern.numeral (c :: rest) = some (afterDigit c rest).1 := by
  rw [Pattern.numeral, List.takeWhile_cons, if_pos hc, List.dropWhile_cons, if_pos hc, afterDigit]
  dsimp only
  generalize rest.dropWhile Decimal.isDigit = left
  cases left with
  | nil => rfl
  | cons d left =>
    by_cases hpoint : d = '.'
    · subst hpoint
      cases left with
      | nil => rfl
      | cons e left => by_cases he : Decimal.isDigit e = true <;> simp [Pattern.fraction, he]
    · simp [Pattern.fraction, hpoint]

/-- A quotation mark starts a text if it is closed, and otherwise what is left. -/
theorem text_or_openText (rest : List Char) :
    (Pattern.closedText (Text.quotationMark :: rest)).or
      (Pattern.openText (Text.quotationMark :: rest)) = some (afterQuote rest).1 := by
  rw [Pattern.closedText, Pattern.openText, behind_eq, behind_eq, afterQuote]
  cases rest.dropWhile isInner <;> rfl

/-- A comment is found where two slashes stand. -/
theorem comment_eq_some {c : Char} {rest : List Char} {p : Piece}
    (h : Pattern.comment (c :: rest) = some p) : p = (afterSign c rest).1 := by
  by_cases hc : c = '/'
  · subst hc
    rw [Pattern.comment, behind_eq] at h
    cases rest with
    | nil => cases h
    | cons d left =>
      by_cases hd : d = '/'
      · subst hd
        rw [behind_eq] at h
        cases h
        rfl
      · rw [behind_eq_none hd] at h
        cases h
  · rw [Pattern.comment, behind_eq_none hc] at h
    cases h

/-- The patterns, written out in their order. -/
theorem alternation_eq (cs : List Char) :
    alternation cs = (Pattern.newline cs).or ((Pattern.gap cs).or ((Pattern.comment cs).or
      (((Pattern.closedText cs).or (Pattern.openText cs)).or ((Pattern.numeral cs).or
        ((Pattern.word cs).or
          ((signs.map Pattern.spelled ++ [Pattern.other]).findSome? (· cs))))))) := by
  have hcons : ∀ (p : Pattern) ps, (p :: ps).findSome? (· cs) = (p cs).or (ps.findSome? (· cs)) := by
    intro p ps
    rw [List.findSome?_cons]
    cases p cs <;> rfl
  simp only [alternation, alternatives, List.cons_append, List.nil_append, hcons, Option.or_assoc]

/-- The first pattern that matches finds the piece that maximal munch cuts off. -/
theorem alternation_first (c : Char) (rest : List Char) :
    alternation (c :: rest) = some (first c rest).1 := by
  rw [alternation_eq]
  -- the patterns in front are ruled out by the first character, one after another
  by_cases hline : c = '\n'
  · subst hline
    rfl
  rw [Pattern.newline, behind_eq_none hline, Option.none_or]
  by_cases hgap : isGap c = true
  · rw [first_of_gap hgap, Pattern.gap, List.takeWhile_cons, if_pos hgap]
    rfl
  rw [gap_eq_none hgap, Option.none_or]
  by_cases hquote : c = Text.quotationMark
  · subst hquote
    have hcomment : Pattern.comment (Text.quotationMark :: rest) = none := rfl
    rw [hcomment, Option.none_or, text_or_openText]
    rfl
  have hclosed : Pattern.closedText (c :: rest) = none := behind_eq_none hquote _
  have hopen : Pattern.openText (c :: rest) = none := behind_eq_none hquote _
  rw [hclosed, hopen, Option.none_or, Option.none_or]
  by_cases hdigit : Decimal.isDigit c = true
  · have hcomment : Pattern.comment (c :: rest) = none := by
      refine behind_eq_none ?_ _
      rintro rfl
      exact absurd hdigit (by decide)
    rw [first_of_digit hdigit, hcomment, Option.none_or, numeral_eq hdigit]
    rfl
  rw [numeral_eq_none hdigit, Option.none_or]
  by_cases hletter : isLetter c = true
  · have hcomment : Pattern.comment (c :: rest) = none := by
      refine behind_eq_none ?_ _
      rintro rfl
      exact absurd hletter (by decide)
    rw [first_of_letter hletter, hcomment, Option.none_or, Pattern.word, if_pos hletter]
    rfl
  rw [word_eq_none hletter, Option.none_or]
  have hfirst : first c rest = afterSign c rest := by
    rw [first, if_neg hline, if_neg hgap, if_neg hquote, if_neg hdigit, if_neg hletter]
  rw [hfirst]
  cases hcomment : Pattern.comment (c :: rest) with
  | none => rw [Option.none_or, signs_eq hline hcomment]
  | some p => rw [Option.some_or, comment_eq_some hcomment]

/-- To take the first pattern that matches is to take the longest piece. -/
theorem alternation_eq_some_iff {cs : List Char} {p : Piece} :
    alternation cs = some p ↔ p.CutOff cs := by
  cases cs with
  | nil =>
    constructor
    · intro h
      cases h
    · intro h
      exact absurd h (not_cutOff_nil p)
  | cons c rest =>
    rw [alternation_first, Option.some.injEq]
    constructor
    · rintro rfl
      exact cutOff_first c rest
    · intro h
      exact (cutOff_first c rest).unique h

end Piece

end LoxScript
