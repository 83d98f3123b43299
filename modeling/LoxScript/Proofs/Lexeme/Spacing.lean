import LoxScript.Proofs.Lexeme.Blanks

/-!
# Writing tokens and scanning them again

A blank ends every token. So tokens can be written down by their lexemes, with a blank between two
neighbours, and scanning what is written gives them back, on other lines perhaps: whatever the tokens
are and in whatever order they come, none is split, none is joined to its neighbour, and nothing is
reported (`lexemes_scan_back`).
-/

namespace LoxScript

/-- What a token is, wherever it stands. -/
structure Content where
  kind : TokenKind
  lexeme : String
  literal : Value

/-- What is left of a token without its line. -/
def Token.content (t : Token) : Content := ⟨t.kind, t.lexeme, t.literal⟩

/-- Some source has a token of this content, and the token is no end mark. -/
def Content.Scannable (c : Content) : Prop :=
  c.kind ≠ .endMark ∧ ∃ source : String, c ∈ (Scan.ofSource source).tokens.map Token.content

/-- The lexemes with a blank between two neighbours. -/
def spaced (lexemes : List String) : String := " ".intercalate lexemes

/-! ## Tokens and pieces -/

namespace Piece

variable {p : Piece} {c : Content} {cs : List Char}

/-- The piece stands for a token of the given content, on whatever line. -/
structure Spells (p : Piece) (c : Content) : Prop where
  lexical : p.Lexical
  isToken : p.isToken = true
  content (line : Int) : (p.token? line).map Token.content = some c

theorem isToken_of_token? {line : Int} {t : Token} (h : p.token? line = some t) :
    p.isToken = true := by
  cases hp : p.isToken with
  | true => rfl
  | false =>
    rw [token?_of_not_isToken hp] at h
    cases h

theorem isSolid_of_isToken (h : p.isToken = true) : p.isSolid = true := by
  cases p with
  | blanks run => cases h
  | _ => rfl

/-- A piece that stands for a token is no error. -/
theorem error?_of_isToken (h : p.isToken = true) (line : Int) : p.error? line = none := by
  cases p with
  | openText _ | stray _ => cases h
  | _ => rfl

theorem Found.lexical_of_isToken (hp : p.Found) (h : p.isToken = true) : p.Lexical := by
  cases hp with
  | lexical hp => exact hp
  | _ => cases h

/-- A piece of a source spells the content of its token. -/
theorem Found.spells (hp : p.Found) {line : Int} {t : Token} (h : p.token? line = some t) :
    p.Spells t.content where
  lexical := hp.lexical_of_isToken (isToken_of_token? h)
  isToken := isToken_of_token? h
  content line' := by
    have hline : (p.token? line').map Token.content = (p.token? line).map Token.content := by
      cases p <;> rfl
    rw [hline, h, Option.map_some]

/-- The lexeme of a token is all there is of its piece. -/
theorem Spells.toList_lexeme (h : p.Spells c) : c.lexeme.toList = p.chars := by
  obtain ⟨t, ht, hdenotes⟩ := token?_of_isToken h.isToken 1
  have hcontent := h.content 1
  rw [ht, Option.map_some, Option.some.injEq] at hcontent
  rw [← hcontent]
  exact hdenotes.lexeme

/-- Every token ends before a blank, and at the end of a text. -/
theorem endsBefore_of_isToken (h : p.isToken = true) (hcs : cs = [] ∨ ∃ more, cs = ' ' :: more) :
    p.EndsBefore cs := by
  have hstops : ∀ q : Char → Bool, q ' ' = false → Stops q cs := by
    intro q hq
    rcases hcs with rfl | ⟨more, rfl⟩
    · exact stops_nil
    · exact stops_cons.mpr hq
  cases p with
  | text inner => trivial
  | numeral whole fraction =>
    refine ⟨hstops _ (by decide), fun _ => ?_⟩
    rcases hcs with rfl | ⟨more, rfl⟩ <;> rfl
  | word letters => exact hstops _ (by decide)
  | sign chars kind => exact hstops _ (goesOn_blank chars)
  | _ => cases h

end Piece

namespace Scan

variable {ps : List Piece} {cs : List Content}

theorem mem_tokensOf {line : Int} {t : Token} (h : t ∈ tokensOf line ps) :
    ∃ p ∈ ps, ∃ last, p.token? last = some t := by
  induction ps generalizing line with
  | nil => cases h
  | cons p ps ih =>
    rw [tokensOf] at h
    rcases List.mem_append.mp h with h | h
    · exact ⟨p, by simp, _, Option.mem_toList.mp h⟩
    · obtain ⟨q, hq, hlast⟩ := ih h
      exact ⟨q, by simp [hq], hlast⟩

/-- What some source has a token of is spelled by some piece. -/
theorem exists_spelling {c : Content} (h : c.Scannable) : ∃ p : Piece, p.Spells c := by
  obtain ⟨hkind, source, hmem⟩ := h
  obtain ⟨t, ht, rfl⟩ := List.mem_map.mp hmem
  rw [tokens_ofSource] at ht
  rcases List.mem_append.mp ht with ht | ht
  · obtain ⟨p, hp, last, hlast⟩ := mem_tokensOf ht
    exact ⟨p, (found_pieces _ p hp).spells hlast⟩
  · rw [List.mem_singleton.mp ht] at hkind
    exact absurd rfl hkind

/-- Contents that are scannable are spelled by pieces. -/
theorem exists_spellings (h : ∀ c ∈ cs, c.Scannable) : ∃ ps, List.Forall₂ Piece.Spells ps cs := by
  induction cs with
  | nil => exact ⟨[], .nil⟩
  | cons c cs ih =>
    obtain ⟨hc, hcs⟩ := List.forall_mem_cons.mp h
    obtain ⟨p, hp⟩ := exists_spelling hc
    obtain ⟨ps, hps⟩ := ih hcs
    exact ⟨p :: ps, .cons hp hps⟩

/-- Pieces that spell tokens are scanned as these tokens. -/
theorem ofPieces_spelled (h : List.Forall₂ Piece.Spells ps cs) (line : Int) :
    (ofPieces line ps).tokens.map Token.content = cs ++ [⟨.endMark, "", .nil⟩] ∧
      (ofPieces line ps).errors = [] := by
  induction h generalizing line with
  | nil => exact ⟨rfl, rfl⟩
  | @cons p c ps cs hp hps ih =>
    obtain ⟨htokens, herrors⟩ := ih (line + Text.newlines p.chars)
    have hcontent := hp.content (line + Text.newlines p.chars)
    have hnone := Piece.error?_of_isToken hp.isToken (line + Text.newlines p.chars)
    rw [ofPieces]
    refine ⟨?_, ?_⟩
    · rw [List.map_append, htokens, ← Option.toList_map, hcontent]
      rfl
    · rw [herrors, hnone]
      rfl

/-- The pieces of a text of lexemes are, but for blanks, those that spell the tokens. An empty lexeme at
the end makes no difference. -/
theorem solid_pieces_spaced (h : List.Forall₂ Piece.Spells ps cs) {tail : List String}
    (htail : tail = [] ∨ tail = [""]) :
    (pieces (spaced (cs.map Content.lexeme ++ tail)).toList).filter Piece.isSolid = ps := by
  induction h with
  | nil =>
    have hempty : (spaced ([] ++ tail)).toList = [] := by
      rcases htail with rfl | rfl <;> rfl
    rw [List.map_nil, hempty, pieces]
    rfl
  | @cons p c ps cs hp hps ih =>
    have hsolid := Piece.isSolid_of_isToken hp.isToken
    rw [List.map_cons, List.cons_append]
    -- the last lexeme ends with the text, any other one before a blank
    by_cases hlast : cs.map Content.lexeme ++ tail = []
    · rw [hlast] at ih ⊢
      have hps : ps = [] := by
        rw [← ih]
        show (pieces []).filter Piece.isSolid = []
        rw [pieces]
        rfl
      have hpieces :=
        pieces_of_endsBefore hp.lexical (Piece.endsBefore_of_isToken hp.isToken (.inl rfl))
      have hone : spaced [c.lexeme] = c.lexeme := String.intercalate_singleton
      rw [List.append_nil, pieces] at hpieces
      rw [hone, hp.toList_lexeme, hpieces, hps, List.filter_cons_of_pos hsolid]
      rfl
    · have hmore : (spaced (c.lexeme :: (cs.map Content.lexeme ++ tail))).toList =
          p.chars ++ ' ' :: (spaced (cs.map Content.lexeme ++ tail)).toList := by
        rw [spaced, String.intercalate_cons_of_ne_nil hlast, ← spaced, ← hp.toList_lexeme]
        simp
      have hends : p.EndsBefore (' ' :: (spaced (cs.map Content.lexeme ++ tail)).toList) :=
        Piece.endsBefore_of_isToken hp.isToken (.inr ⟨_, rfl⟩)
      rw [hmore, pieces_of_endsBefore hp.lexical hends, List.filter_cons_of_pos hsolid,
        solid_pieces_cons (by decide), ih]

/-- Lexemes that are written with blanks between them are scanned as the tokens that they come from. -/
theorem ofSource_spaced (h : ∀ c ∈ cs, c.Scannable) {tail : List String}
    (htail : tail = [] ∨ tail = [""]) :
    (ofSource (spaced (cs.map Content.lexeme ++ tail))).tokens.map Token.content =
        cs ++ [⟨.endMark, "", .nil⟩] ∧
      (ofSource (spaced (cs.map Content.lexeme ++ tail))).errors = [] := by
  obtain ⟨ps, hps⟩ := exists_spellings h
  rw [ofSource_eq_solid, solid_pieces_spaced hps htail]
  exact ofPieces_spelled hps 1

/-- The content of a token of a source is scannable. -/
theorem scannable_of_mem_bare {source : String} {c : Content}
    (h : c ∈ (bare source).map Token.content) : c.Scannable := by
  obtain ⟨t, ht, rfl⟩ := List.mem_map.mp h
  refine ⟨?_, source, ?_⟩
  · have hproper := isProper_bare source t ht
    show t.kind ≠ .endMark
    simpa [Cursor.isProper] using hproper
  · rw [tokens_ofSource]
    exact List.mem_map_of_mem (List.mem_append_left _ ht)

end Scan

/-- Tokens are determined by their lexemes. If each of the given contents is that of a token of some
source, then their lexemes with a blank between two neighbours are scanned without an error as tokens of
these contents, in order, and the end mark. In particular, the tokens of any source are found again, up
to lines, in the text of their lexemes, with or without the lexeme of the end mark, which is empty. -/
theorem lexemes_scan_back :
    (∀ cs : List Content, (∀ c ∈ cs, c.Scannable) →
      (Scan.ofSource (spaced (cs.map Content.lexeme))).errors = [] ∧
        (Scan.ofSource (spaced (cs.map Content.lexeme))).tokens.map Token.content =
          cs ++ [⟨.endMark, "", .nil⟩]) ∧
    ∀ (source : String) (lexemes : List String),
      lexemes = (Scan.ofSource source).tokens.dropLast.map Token.lexeme ∨
          lexemes = (Scan.ofSource source).tokens.map Token.lexeme →
        (Scan.ofSource (spaced lexemes)).errors = [] ∧
          (Scan.ofSource (spaced lexemes)).tokens.map Token.content =
            (Scan.ofSource source).tokens.map Token.content := by
  refine ⟨fun cs h => ?_, fun source lexemes hlexemes => ?_⟩
  · have hscan := Scan.ofSource_spaced h (.inl rfl)
    rw [List.append_nil] at hscan
    exact ⟨hscan.2, hscan.1⟩
  · have hbare : ∀ c ∈ (Scan.bare source).map Token.content, c.Scannable :=
      fun c hc => Scan.scannable_of_mem_bare hc
    have hcontents : (Scan.ofSource source).tokens.map Token.content =
        (Scan.bare source).map Token.content ++ [⟨.endMark, "", .nil⟩] := by
      rw [Scan.tokens_ofSource, List.map_append]
      rfl
    have htail : ∃ tail, (tail = [] ∨ tail = [""]) ∧
        lexemes = ((Scan.bare source).map Token.content).map Content.lexeme ++ tail := by
      rw [Scan.tokens_ofSource, List.dropLast_concat, List.map_append] at hlexemes
      rw [List.map_map]
      rcases hlexemes with hlexemes | hlexemes
      · exact ⟨[], .inl rfl, by rw [hlexemes, List.append_nil]; rfl⟩
      · exact ⟨[""], .inr rfl, hlexemes⟩
    obtain ⟨tail, htail, rfl⟩ := htail
    have hscan := Scan.ofSource_spaced hbare htail
    exact ⟨hscan.2, hscan.1.trans hcontents.symm⟩

/-- Tokens that stand close together: slashes, points, digits, signs, and a text over two lines. -/
def denseSource : String := "\"a\n//b\"1.5.5/!x==1var var!="

/-- The tokens of a source in reverse order, without the end mark. -/
def backwards (source : String) : List Content :=
  ((Scan.ofSource source).tokens.dropLast.map Token.content).reverse

theorem denseSource_backwards :
    (∀ c ∈ backwards denseSource, c.Scannable) ∧
      spaced ((backwards denseSource).map Content.lexeme) =
        "!= var var 1 == x ! / 5 . 1.5 \"a\n//b\"" ∧
      (Scan.ofSource "!= var var 1 == x ! / 5 . 1.5 \"a\n//b\"").tokens.map Token.content =
        backwards denseSource ++ [⟨.endMark, "", .nil⟩] ∧
      (Scan.ofSource "\"a\n//b\" 1.5 . 5 / ! x == 1 var var != ").tokens.map Token.content =
        (Scan.ofSource denseSource).tokens.map Token.content := by
  have hkinds : ∀ c ∈ backwards denseSource, c.kind ≠ .endMark := by decide +kernel
  have hscannable : ∀ c ∈ backwards denseSource, c.Scannable := by
    intro c hc
    obtain ⟨t, ht, htc⟩ := List.mem_map.mp (List.mem_reverse.mp hc)
    exact ⟨hkinds c hc, denseSource, List.mem_map.mpr ⟨t, List.dropLast_subset _ ht, htc⟩⟩
  have hspaced : spaced ((backwards denseSource).map Content.lexeme) =
      "!= var var 1 == x ! / 5 . 1.5 \"a\n//b\"" := by decide +kernel
  have hscan := lexemes_scan_back.1 (backwards denseSource) hscannable
  rw [hspaced] at hscan
  have hforwards : spaced ((Scan.ofSource denseSource).tokens.map Token.lexeme) =
      "\"a\n//b\" 1.5 . 5 / ! x == 1 var var != " := by decide +kernel
  have hagain := lexemes_scan_back.2 denseSource _ (.inr rfl)
  rw [hforwards] at hagain
  exact ⟨hscannable, hspaced, hscan.2, hagain.2⟩

end LoxScript
