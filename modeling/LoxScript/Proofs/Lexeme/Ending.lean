import LoxScript.Proofs.Lexeme.Alternation

/-!
# Where a piece ends

A piece is not only its characters: whether `1` or `!` is a whole piece depends on what follows it.
`Piece.EndsBefore` says what may follow a piece without being taken for a part of it. The first piece of
a text is the piece that the text starts with and that ends before the rest
(`first_of_endsBefore`, `endsBefore_first`). So a text may be changed behind a piece as long as the
piece still ends there.
-/

namespace LoxScript

/-- The text does not start with a character that satisfies `p`. -/
def Stops (p : Char → Bool) (left : List Char) : Prop := ∀ c ∈ left.head?, p c = false

section

variable {p : Char → Bool}

theorem stops_nil : Stops p [] := by
  intro c hc
  cases hc

theorem stops_cons {c : Char} {left : List Char} : Stops p (c :: left) ↔ p c = false := by
  simp [Stops]

/-- What is left of a text stops the run that was taken from it. -/
theorem stops_dropWhile (cs : List Char) : Stops p (cs.dropWhile p) := by
  intro c hc
  have hstop := List.head?_dropWhile_not p cs
  rw [Option.mem_def.mp hc] at hstop
  simpa using hstop

theorem takeWhile_of_stops {left : List Char} (h : Stops p left) : left.takeWhile p = [] := by
  cases left with
  | nil => rfl
  | cons c left =>
    have hc : ¬ p c = true := by simp [stops_cons.mp h]
    exact List.takeWhile_cons_of_neg hc

/-- A run that is followed by a text where it stops is exactly what is taken. -/
theorem span_of_stops {cs left : List Char} (hcs : ∀ c ∈ cs, p c = true) (hleft : Stops p left) :
    (cs ++ left).takeWhile p = cs ∧ (cs ++ left).dropWhile p = left := by
  have htake : (cs ++ left).takeWhile p = cs := by
    rw [List.takeWhile_append_of_pos hcs, takeWhile_of_stops hleft, List.append_nil]
  have htext := List.takeWhile_append_dropWhile (p := p) (l := cs ++ left)
  rw [htake] at htext
  exact ⟨htake, List.append_cancel_left htext⟩

end

namespace Piece

/-- An operator or a pair of slashes starts with the given characters and goes on with the other one. -/
def goesOn : List Char → Char → Bool
  | [c], d => (c == '/' && d == '/') || (d == '=' && (signEqualKind? c).isSome)
  | _, _ => false

/-- No operator goes on with a blank. -/
theorem goesOn_blank (chars : List Char) : goesOn chars ' ' = false := by
  unfold goesOn
  split
  · have hslash : (' ' == '/') = false := by decide
    have hequal : (' ' == '=') = false := by decide
    simp [hslash, hequal]
  · rfl

/-- What follows is not taken for a part of the piece. -/
def EndsBefore (left : List Char) : Piece → Prop
  | newline | text _ | stray _ => True
  | blanks _ => Stops isGap left
  | comment _ => Stops isRemark left
  | openText _ => left = []
  | numeral _ fraction =>
    Stops Decimal.isDigit left ∧ (fraction = [] → Pattern.fraction left = [])
  | word _ => Stops isWordChar left
  | sign chars _ => Stops (goesOn chars) left

variable {p : Piece} {c : Char} {cs left rest : List Char}

/-! ## The first piece ends before what is left -/

/-- A text ends where its second quotation mark stands. -/
theorem endsBefore_afterQuote (rest : List Char) :
    (afterQuote rest).1.EndsBefore (afterQuote rest).2 := by
  unfold afterQuote
  split
  · rfl
  · trivial

/-- A text has no fraction at its front unless it starts with a point and a digit. -/
theorem fraction_eq_nil
    (h : ∀ d more, left = '.' :: d :: more → ¬ Decimal.isDigit d = true) :
    Pattern.fraction left = [] := by
  unfold Pattern.fraction
  split
  · next more =>
    cases more with
    | nil => rfl
    | cons d more => exact List.takeWhile_cons_of_neg (h d more rfl)
  · rfl

/-- A numeral ends where no more digits follow, and no fraction. -/
theorem endsBefore_afterDigit (c : Char) (rest : List Char) :
    (afterDigit c rest).1.EndsBefore (afterDigit c rest).2 := by
  have hstops : Stops Decimal.isDigit (rest.dropWhile Decimal.isDigit) := stops_dropWhile rest
  unfold afterDigit
  generalize rest.dropWhile Decimal.isDigit = left at hstops
  split
  · next d left =>
    split
    · refine ⟨stops_dropWhile left, ?_⟩
      intro hnil
      cases hnil
    · next hd =>
      refine ⟨hstops, fun _ => fraction_eq_nil ?_⟩
      intro e more heq
      cases heq
      exact hd
  · next hpoint =>
    refine ⟨hstops, fun _ => fraction_eq_nil ?_⟩
    intro d more heq
    exact absurd heq (hpoint d more)

theorem endsBefore_single (h : Stops (goesOn [c]) left) : (single c).EndsBefore left := by
  unfold single
  split
  · exact h
  · trivial

/-- An operator ends where it cannot be made longer. -/
theorem endsBefore_afterSign (c : Char) (rest : List Char) :
    (afterSign c rest).1.EndsBefore (afterSign c rest).2 := by
  unfold afterSign
  split
  · exact endsBefore_single stops_nil
  · next d left =>
    split
    · exact stops_dropWhile left
    · next hcomment =>
      have hslash : (c == '/' && d == '/') = false := by simpa using hcomment
      split
      · split
        · intro e he
          rfl
        · next hnone =>
          refine endsBefore_single (stops_cons.mpr ?_)
          simp only [goesOn, hslash, hnone, Option.isSome_none, Bool.and_false, Bool.or_false]
      · next hd =>
        refine endsBefore_single (stops_cons.mpr ?_)
        have hequal : (d == '=') = false := by simpa using hd
        simp only [goesOn, hslash, hequal, Bool.false_and, Bool.or_false]

/-- The first piece of a text ends before what is left. -/
theorem endsBefore_first (c : Char) (rest : List Char) :
    (first c rest).1.EndsBefore (first c rest).2 := by
  unfold first
  split
  · trivial
  split
  · exact stops_dropWhile rest
  split
  · exact endsBefore_afterQuote rest
  split
  · exact endsBefore_afterDigit c rest
  split
  · exact stops_dropWhile rest
  · exact endsBefore_afterSign c rest

/-! ## A piece that ends before the rest is the first one -/

/-- What is left behind the first piece is determined by that piece. -/
theorem first_of_fst (hfirst : (first c (cs ++ left)).1 = p) (hchars : p.chars = c :: cs) :
    first c (cs ++ left) = (p, left) := by
  have htext := first_chars c (cs ++ left)
  rw [hfirst, hchars, ← List.cons_append] at htext
  exact Prod.ext hfirst (List.append_cancel_left htext)

/-- A run of blanks is cut off as a whole. -/
theorem first_of_run {c : Char} {cs : List Char} (hc : isGap c = true)
    (hcs : ∀ d ∈ cs, isGap d = true) (hleft : Stops isGap left) :
    (first c (cs ++ left)).1 = blanks (c :: cs) := by
  rw [first_of_gap hc, (span_of_stops hcs hleft).1]

theorem first_of_remark {body : List Char} (hbody : '\n' ∉ body) (hleft : Stops isRemark left) :
    (first '/' ('/' :: body ++ left)).1 = comment body := by
  rw [List.cons_append, first_comment hbody, takeWhile_of_stops hleft, List.append_nil]

/-- Digits are a numeral if neither more digits nor a fraction follow. -/
theorem first_of_whole {ds : List Char} (hc : Decimal.isDigit c = true)
    (hds : ∀ d ∈ ds, Decimal.isDigit d = true) (hleft : Stops Decimal.isDigit left)
    (hpoint : Pattern.fraction left = []) :
    (first c (ds ++ left)).1 = numeral (c :: ds) [] := by
  obtain ⟨htake, hdrop⟩ := span_of_stops (List.forall_mem_cons.mpr ⟨hc, hds⟩) hleft
  have hnumeral := numeral_eq hc (ds ++ left)
  rw [Pattern.numeral, ← List.cons_append, htake, hdrop, hpoint] at hnumeral
  rw [first_of_digit hc]
  exact (Option.some.inj hnumeral).symm

/-- Digits with a fraction are a numeral if no more digits follow. -/
theorem first_of_decimal {e : Char} {ds es : List Char} (hc : Decimal.isDigit c = true)
    (hds : ∀ d ∈ ds, Decimal.isDigit d = true) (he : Decimal.isDigit e = true)
    (hes : ∀ d ∈ es, Decimal.isDigit d = true) (hleft : Stops Decimal.isDigit left) :
    (first c (ds ++ '.' :: e :: es ++ left)).1 = numeral (c :: ds) (e :: es) := by
  rw [List.append_assoc, List.cons_append, List.cons_append, first_fraction hc hds he hes,
    takeWhile_of_stops hleft, List.append_nil]

/-- A name is cut off as a whole. -/
theorem first_of_word {letters : List Char} (hc : isLetter c = true)
    (hletters : ∀ d ∈ letters, isWordChar d = true) (hleft : Stops isWordChar left) :
    (first c (letters ++ left)).1 = word (c :: letters) := by
  rw [first_of_letter hc, (span_of_stops hletters hleft).1]

theorem first_of_doubleSign {kind : TokenKind} (h : signEqualKind? c = some kind)
    (left : List Char) : (first c (['='] ++ left)).1 = sign [c, '='] kind := by
  obtain ⟨plain, hplain⟩ := signKind_of_signEqualKind h
  have hcomment : ¬ (c = '/' ∧ '=' = '/') := by simp
  rw [first_of_signKind hplain, List.singleton_append, afterSign, if_neg hcomment, if_pos rfl, h]

/-- An operator of one character is cut off unless it is the start of a longer one. -/
theorem first_of_singleSign {kind : TokenKind} (h : signKind? c = some kind)
    (hleft : Stops (goesOn [c]) left) : (first c ([] ++ left)).1 = sign [c] kind := by
  have hsingle : single c = sign [c] kind := by rw [single, h]
  rw [first_of_signKind h, List.nil_append]
  cases left with
  | nil => exact hsingle
  | cons d left =>
    have hd := stops_cons.mp hleft
    simp only [goesOn, Bool.or_eq_false_iff] at hd
    have hcomment : ¬ (c = '/' ∧ d = '/') := by simpa using hd.1
    rw [afterSign, if_neg hcomment]
    split
    · next hequal =>
      have hnone : signEqualKind? c = none := by simpa [hequal] using hd.2
      rw [hnone]
      exact hsingle
    · exact hsingle

/-- A lexical piece that ends before the rest is the first piece. -/
theorem first_of_endsBefore (hp : p.Lexical) (hchars : p.chars = c :: cs)
    (hends : p.EndsBefore left) : first c (cs ++ left) = (p, left) := by
  refine first_of_fst ?_ hchars
  cases hp with
  | newline =>
    cases hchars
    rfl
  | blanks hne hrun =>
    cases hchars
    obtain ⟨hc, hcs⟩ := List.forall_mem_cons.mp fun d hd => isGap_iff.mpr (hrun d hd)
    exact first_of_run hc hcs hends
  | comment hbody =>
    cases hchars
    exact first_of_remark hbody hends
  | @text inner hinner =>
    cases hchars
    show (first Text.quotationMark (inner ++ [Text.quotationMark] ++ left)).1 = text inner
    rw [List.append_assoc, List.singleton_append, first_text hinner]
  | @numeral whole fraction hne hwhole hfraction =>
    obtain ⟨d, ds, rfl⟩ := List.exists_cons_of_ne_nil hne
    obtain ⟨hd, hds⟩ := List.forall_mem_cons.mp hwhole
    cases fraction with
    | nil =>
      cases hchars
      exact first_of_whole hd hds hends.1 (hends.2 rfl)
    | cons e es =>
      cases hchars
      obtain ⟨he, hes⟩ := List.forall_mem_cons.mp hfraction
      exact first_of_decimal hd hds he hes hends.1
  | word hc hletters =>
    cases hchars
    exact first_of_word hc hletters hends
  | sign hmem =>
    rcases mem_signs_iff.mp hmem with ⟨d, rfl, hd⟩ | ⟨d, rfl, hd⟩
    · cases hchars
      exact first_of_doubleSign hd left
    · cases hchars
      exact first_of_singleSign hd hends

end Piece

/-- A text that starts with a lexical piece which ends before the rest is cut there. -/
theorem pieces_of_endsBefore {p : Piece} {left : List Char} (hp : p.Lexical)
    (hends : p.EndsBefore left) : pieces (p.chars ++ left) = p :: pieces left := by
  obtain ⟨c, cs, hreaches⟩ := Piece.reaches_of_lexical hp
  rw [hreaches.chars_eq, List.cons_append, pieces_cons,
    Piece.first_of_endsBefore hp hreaches.chars_eq hends]

end LoxScript
